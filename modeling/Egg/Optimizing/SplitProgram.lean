import Egg.Optimizing.EdgeSplitting

/-! The program after its critical edges are split. -/
namespace Egg.Optimizing

open Egg.Data Egg.Data.FlowGraph Egg.Data.StepSimulation

/-- No edge goes from a block of several targets to a block of several predecessors. -/
def NoCriticalEdges {Block Value Op : Type} (code : Block → OBasicBlock Block Value Op)
    (first : Block) : Prop :=
  ∀ a b, Reachable (Edge (lasts code)) first a → Edge (lasts code) a b →
    ¬ (1 < (successors (lasts code) a).length ∧ 1 < (code b).predecessors.length)

/-- No jump has two equal targets. -/
def NoTwofoldJumps {Block Value Op : Type} (code : Block → OBasicBlock Block Value Op)
    (first : Block) : Prop :=
  ∀ b, Reachable (Edge (lasts code)) first b → (successors (lasts code) b).Nodup

/-- The program with just its critical edges split. -/
structure Split {Block Value Op : Type} [DecidableEq Block] (middle : Block → Block → Block)
    (edges : List (Block × Block)) (code : Block → OBasicBlock Block Value Op) (first : Block) :
    Prop where
  new : NewBlocks middle code first
  ssa : StaticSingle code first
  members : ∀ p b, (p, b) ∈ edges ↔ Critical code first p b

namespace Split

variable {Block Value Op : Type} [DecidableEq Block] {middle : Block → Block → Block}
  {edges : List (Block × Block)} {code : Block → OBasicBlock Block Value Op} {first : Block}
  {a b p t x : Block}

section Reached

variable (split : Split middle edges code first)

include split

theorem edge_of_member (member : (p, b) ∈ edges) : Reachable (Edge (lasts code)) first p ∧
    Reachable (Edge (lasts code)) first b ∧ Edge (lasts code) p b := by
  obtain ⟨reached, -, before, -⟩ := (split.members p b).mp member
  obtain ⟨reached', edge⟩ := (split.ssa.edge_iff reached).mp before
  exact ⟨reached', reached, edge⟩

theorem unmixed : Unmixed middle edges :=
  split.new.unmixed fun _ _ member =>
    ⟨(split.edge_of_member member).1, (split.edge_of_member member).2.2⟩

/-- An edge leads on, or to the block that is put on it. -/
theorem edge_split (reached : Reachable (Edge (lasts code)) first a)
    (edge : Edge (lasts code) a t) : Edge (lasts (splitCode middle edges code)) a t ∨
      (a, t) ∈ edges ∧ Edge (lasts (splitCode middle edges code)) a (middle a t) := by
  have old := fun p q => split.new.old reached p q
  unfold Edge successors lasts at edge ⊢
  rw [splitCode_old old]
  show t ∈ ((code a).lastInstruction.splitAt middle edges a).last.targets ∨ _ ∧
    middle a t ∈ ((code a).lastInstruction.splitAt middle edges a).last.targets
  cases exit : (code a).lastInstruction with
  | leave source => rw [exit] at edge; cases edge
  | jump target =>
    rw [exit] at edge
    exact .inl edge
  | jumpConditional onTrue tested target implicitTarget =>
    rw [exit] at edge
    have edge' : t ∈ [implicitTarget, target] := edge
    simp only [Exit.splitAt, Exit.last, Last.targets, List.mem_cons, List.not_mem_nil, or_false]
    by_cases member : (a, t) ∈ edges
    · rcases List.mem_pair.mp edge' with rfl | rfl
      · by_cases same : t = target
        · subst same
          exact .inr ⟨member, .inr (by rw [if_pos member])⟩
        · exact .inr ⟨member, .inl (by rw [if_pos ⟨same, member⟩])⟩
      · exact .inr ⟨member, .inr (by rw [if_pos member])⟩
    · rcases List.mem_pair.mp edge' with rfl | rfl
      · exact .inl (.inl (by rw [if_neg fun both => member both.2]))
      · exact .inl (.inr (by rw [if_neg member]))

theorem reachable_split (reached : Reachable (Edge (lasts code)) first b) :
    Reachable (Edge (lasts (splitCode middle edges code))) first b := by
  obtain ⟨nodes, path⟩ := reached
  induction path with
  | here => exact reachable_first
  | @step nodes a c path edge ih =>
    rcases split.edge_split ⟨nodes, path⟩ edge with next | ⟨member, next⟩
    · exact ih.step next
    · refine (ih.step next).step ?_
      show c ∈ successors _ (middle a c)
      rw [successors_splitCode_middle split.unmixed member]
      exact List.mem_cons_self

/-- A jump with two equal targets keeps a critical edge. -/
theorem critical_of_twofold (reached : Reachable (Edge (lasts code)) first b)
    (twofold : ¬ (successors (lasts code) b).Nodup) :
    ¬ NoCriticalEdges (splitCode middle edges code) first := by
  have old := fun p q => split.new.old reached p q
  intro none
  unfold successors lasts at twofold
  cases exit : (code b).lastInstruction with
  | leave source => rw [exit] at twofold; exact twofold List.nodup_nil
  | jump target => rw [exit] at twofold; exact twofold (List.nodup_singleton _)
  | jumpConditional onTrue tested target implicitTarget =>
    rw [exit] at twofold
    have same : implicitTarget = target := by
      by_contra other
      exact twofold (List.nodup_cons.mpr ⟨by rwa [List.mem_singleton], List.nodup_singleton _⟩)
    subst same
    have targets : successors (lasts code) b = [implicitTarget, implicitTarget] := by
      rw [successors, lasts, exit]
      rfl
    have edge : Edge (lasts code) b implicitTarget := by
      rw [Edge, targets]
      exact List.mem_cons_self
    have reached' := reached.step edge
    have twice : (code implicitTarget).predecessors.count b = 2 := by
      rw [split.ssa.counts _ reached' b reached, targets, List.count_cons_self,
        List.count_cons_self, List.count_nil]
    refine none b implicitTarget (split.reachable_split reached) ?_ ⟨?_, ?_⟩
    · rw [Edge, successors, lasts, splitCode_old old]
      show implicitTarget ∈ ((code b).lastInstruction.splitAt middle edges b).last.targets
      rw [exit]
      simp only [Exit.splitAt, ne_eq, not_true, false_and, if_false, Exit.last, Last.targets]
      exact List.mem_cons_self
    · rw [successors_splitCode_length old, targets]
      exact Nat.lt_succ_self 1
    · rw [predecessors_splitCode fun p q => split.new.old reached' p q, List.length_map]
      have counted := List.count_le_length (a := b) (l := (code implicitTarget).predecessors)
      omega

variable (once : NoTwofoldJumps code first)

include once

/-- Where the blocks of the program go on. -/
theorem successors_split (reached : Reachable (Edge (lasts code)) first b) :
    successors (lasts (splitCode middle edges code)) b =
      (successors (lasts code) b).map (toward middle edges b) := by
  have old := fun p q => split.new.old reached p q
  have nodup := once b reached
  unfold successors lasts at nodup ⊢
  rw [splitCode_old old]
  show ((code b).lastInstruction.splitAt middle edges b).last.targets = _
  cases exit : (code b).lastInstruction with
  | leave source => rfl
  | jump target =>
    have whole : (b, target) ∉ edges := fun member => by
      have many := ((split.members _ _).mp member).2.2.2
      rw [successors, lasts, exit] at many
      exact Nat.lt_irrefl 1 many
    show [target] = [toward middle edges b target]
    rw [toward, if_neg whole]
  | jumpConditional onTrue tested target implicitTarget =>
    rw [exit] at nodup
    have other : implicitTarget ≠ target := fun same => by
      have apart := (List.nodup_cons.mp nodup).1
      exact apart (same ▸ List.mem_cons_self)
    simp only [Exit.splitAt, other, ne_eq, not_false_eq_true, true_and]
    rfl

/-- The blocks that are reached are those of the program and the new ones. -/
theorem reachable_iff : Reachable (Edge (lasts (splitCode middle edges code))) first x ↔
    Reachable (Edge (lasts code)) first x ∨ ∃ p b, (p, b) ∈ edges ∧ x = middle p b := by
  constructor
  · rintro ⟨nodes, path⟩
    induction path with
    | here => exact .inl reachable_first
    | @step nodes a c path edge ih =>
      rcases ih with reached | ⟨p, b, member, rfl⟩
      · rw [Edge, split.successors_split once reached] at edge
        obtain ⟨t, edge', rfl⟩ := List.mem_map.mp edge
        unfold toward
        split
        · rename_i member
          exact .inr ⟨a, t, member, rfl⟩
        · exact .inl (reached.step edge')
      · rw [Edge, successors_splitCode_middle split.unmixed member] at edge
        rw [List.mem_singleton.mp edge]
        exact .inl (split.edge_of_member member).2.1
  · rintro (reached | ⟨p, b, member, rfl⟩)
    · exact split.reachable_split reached
    · obtain ⟨reached, -, edge⟩ := split.edge_of_member member
      have next : Edge (lasts (splitCode middle edges code)) p (middle p b) := by
        rw [Edge, split.successors_split once reached]
        exact List.mem_map.mpr ⟨b, edge, if_pos member⟩
      exact (split.reachable_split reached).step next

theorem noCriticalEdges : NoCriticalEdges (splitCode middle edges code) first := by
  rintro a t reached edge ⟨many, several⟩
  rcases (split.reachable_iff once).mp reached with reached | ⟨p, b, member, rfl⟩
  · have old := fun p q => split.new.old reached p q
    rw [Edge, split.successors_split once reached] at edge
    rw [successors_splitCode_length old] at many
    obtain ⟨t, edge', rfl⟩ := List.mem_map.mp edge
    have reached' := reached.step edge'
    by_cases member : (a, t) ∈ edges
    · rw [toward, if_pos member, splitCode_middle split.unmixed member] at several
      exact Nat.lt_irrefl 1 several
    · rw [toward, if_neg member, predecessors_splitCode fun p q => split.new.old reached' p q,
        List.length_map] at several
      exact member ((split.members _ _).mpr
        ⟨reached', several, (split.ssa.edge_iff reached').mpr ⟨reached, edge'⟩, many⟩)
  · rw [successors_splitCode_middle split.unmixed member] at many
    exact Nat.lt_irrefl 1 many

end Reached

section Phis

/-- A name is found where its image is among images that keep names apart. -/
theorem idxOf_map {α β : Type} [DecidableEq α] [DecidableEq β] (f : α → β) (x : α) (items : List α)
    (apart : ∀ y ∈ items, f y = f x → y = x) : (items.map f).idxOf (f x) = items.idxOf x := by
  induction items with
  | nil => rfl
  | cons y items ih =>
    have rest := ih fun z member => apart z (List.mem_cons_of_mem _ member)
    rw [List.map_cons, List.idxOf_cons, List.idxOf_cons, rest]
    by_cases same : y = x
    · rw [same, beq_self_eq_true, beq_self_eq_true]
    · have other : f y ≠ f x := fun eq => same (apart y List.mem_cons_self eq)
      rw [beq_eq_false_iff_ne.mpr same, beq_eq_false_iff_ne.mpr other]

variable (split : Split middle edges code first)

include split

theorem instead_apart (reached : Reachable (Edge (lasts code)) first p)
    (reached' : Reachable (Edge (lasts code)) first a)
    (same : instead middle edges b a = instead middle edges b p) : a = p := by
  unfold instead at same
  split at same <;> split at same
  · exact (split.unmixed _ _ ‹_› _ _ ‹_› same).1
  · exact absurd same (split.new.old reached a b)
  · exact absurd same.symm (split.new.old reached' p b)
  · exact same

/-- A phi takes the operand from the block in the place of the predecessor. -/
theorem atOperand_split (reached : Reachable (Edge (lasts code)) first b)
    (reached' : Reachable (Edge (lasts code)) first p) {phi : OPhi Block Value}
    (member : phi ∈ (code b).phis) :
    OPhi.atOperand { phi with blocks := phi.blocks.map (instead middle edges b) }
      (instead middle edges b p) = phi.atOperand p := by
  have apart (a : Block) (inside : a ∈ phi.blocks)
      (same : instead middle edges b a = instead middle edges b p) : a = p :=
    split.instead_apart reached' (split.ssa.comes b reached a
      ((split.ssa.blocks b reached phi member).1.mem_iff.mp inside)) same
  unfold OPhi.atOperand
  rw [idxOf_map _ p phi.blocks apart]

variable [DecidableEq Value] {Datum Store : Type} (machine : Machine Op Datum Store)

theorem enter_split (reached : Reachable (Edge (lasts code)) first b)
    (reached' : Reachable (Edge (lasts code)) first p) (values : Value → Datum) :
    enter (splitCode middle edges code b).phis (instead middle edges b p) values =
      enter (code b).phis p values := by
  rw [splitCode_old fun p q => split.new.old reached p q]
  funext v
  simp only [enter, OBasicBlock.splitAt, List.find?_map]
  cases found : (code b).phis.find? (·.value = v) with
  | none => simp only [Function.comp_def, found, Option.map_none]
  | some phi =>
    have same := split.atOperand_split reached reached' (List.mem_of_find?_eq_some found)
    simp only [Function.comp_def, found, Option.map_some, same]

variable (once : NoTwofoldJumps code first)

include once

omit [DecidableEq Value] in
theorem next_split (reached : Reachable (Edge (lasts code)) first b) (values : Value → Datum) :
    (splitCode middle edges code b).lastInstruction.next machine values =
      ((code b).lastInstruction.next machine values).map (toward middle edges b) := by
  have targets := split.successors_split once reached
  have old := fun p q => split.new.old reached p q
  unfold successors lasts at targets
  rw [splitCode_old old] at targets ⊢
  have targets' : ((code b).lastInstruction.splitAt middle edges b).last.targets =
    (code b).lastInstruction.last.targets.map (toward middle edges b) := targets
  show ((code b).lastInstruction.splitAt middle edges b).next machine values = _
  cases exit : (code b).lastInstruction with
  | leave source => rfl
  | jump target =>
    rw [exit] at targets'
    exact congrArg some (List.cons.inj targets').1
  | jumpConditional onTrue tested target implicitTarget =>
    rw [exit] at targets'
    obtain ⟨implicit, rest⟩ := List.cons.inj targets'
    have explicit := (List.cons.inj rest).1
    simp only [Exit.splitAt, Exit.next, Option.map_some]
    by_cases branch : machine.isTrue (values tested) = onTrue
    · rw [if_pos branch, if_pos branch, explicit]
    · rw [if_neg branch, if_neg branch, implicit]

omit once in
theorem after_split {state : RunState Block Value Datum Store}
    (reached : Reachable (Edge (lasts code)) first state.block) :
    state.after machine (splitCode middle edges code) = state.after machine code := by
  unfold RunState.after
  rw [splitCode_old fun p q => split.new.old reached p q]
  rfl

/-- A step of the program is made with the new block in between, if there is one. -/
theorem follows : Follows (RunState.step machine code)
    (RunState.step machine (splitCode middle edges code))
    (fun s s' => s = s' ∧ Reachable (Edge (lasts code)) first s.block)
    (fun s => ¬ Reachable (Edge (lasts code)) first s.block) := by
  constructor
  · rintro s s' t ⟨rfl, reached⟩ step
    obtain ⟨target, goes, rfl⟩ := Option.map_eq_some_iff.mp step
    have edge : Edge (lasts code) s.block target := Exit.next_mem goes
    have reached' := reached.step edge
    have entered := split.enter_split reached' reached (s.after machine code).1
    refine ⟨_, ⟨rfl, reached'⟩, ?_⟩
    have first' : s.step machine (splitCode middle edges code) =
        some (s.enters machine (splitCode middle edges code)
          (toward middle edges s.block target)) := by
      rw [RunState.step, split.after_split machine reached,
        split.next_split machine once reached, goes]
      rfl
    by_cases member : (s.block, target) ∈ edges
    · have block : splitCode middle edges code (middle s.block target) =
          ⟨[], [], .jump target, [s.block]⟩ := splitCode_middle split.unmixed member
      rw [instead, if_pos member] at entered
      rw [toward, if_pos member] at first'
      refine .inr ⟨_, split.new.fresh _ _, first', ?_⟩
      have silent : s.enters machine (splitCode middle edges code) (middle s.block target) =
          ⟨middle s.block target, (s.after machine code).1, (s.after machine code).2⟩ := by
        rw [RunState.enters, split.after_split machine reached, block]
        rfl
      have kept : RunState.after machine (splitCode middle edges code)
          ⟨middle s.block target, (s.after machine code).1, (s.after machine code).2⟩ =
            s.after machine code := by
        rw [RunState.after, block]
        rfl
      rw [silent, RunState.step, kept, block]
      show some _ = some _
      rw [RunState.enters, kept, RunState.enters, entered]
    · rw [instead, if_neg member] at entered
      rw [toward, if_neg member] at first'
      left
      rw [first', RunState.enters, RunState.enters, split.after_split machine reached, entered]
  · rintro s s' ⟨rfl, reached⟩ step
    have stopped := Option.map_eq_none_iff.mp step
    rw [RunState.step, split.after_split machine reached,
      split.next_split machine once reached, stopped]
    rfl

omit once in
/-- A block of the program answers what it did. -/
theorem answer_split {state : RunState Block Value Datum Store}
    (reached : Reachable (Edge (lasts code)) first state.block) :
    state.answer machine (splitCode middle edges code) = state.answer machine code := by
  unfold RunState.answer
  rw [split.after_split machine reached, splitCode_old fun p q => split.new.old reached p q]
  have ends : ((code state.block).splitAt middle edges state.block).lastInstruction =
    (code state.block).lastInstruction.splitAt middle edges state.block := rfl
  rw [ends]
  cases (code state.block).lastInstruction with
  | leave source => rfl
  | jump target => rfl
  | jumpConditional onTrue tested target implicitTarget => rfl

end Phis

section Form

theorem count_map {α β : Type} [DecidableEq α] [DecidableEq β] {f : α → β} {items : List α} {x : α}
    {y : β} (same : ∀ z ∈ items, f z = y ↔ z = x) : (items.map f).count y = items.count x := by
  induction items with
  | nil => rfl
  | cons z items ih =>
    have rest := ih fun w member => same w (List.mem_cons_of_mem _ member)
    rw [List.map_cons]
    by_cases eq : z = x
    · rw [(same z List.mem_cons_self).mpr eq, eq, List.count_cons_self, List.count_cons_self, rest]
    · have other : f z ≠ y := fun eq' => eq ((same z List.mem_cons_self).mp eq')
      rw [List.count_cons_of_ne other, List.count_cons_of_ne eq, rest]

theorem count_map_none {α β : Type} [DecidableEq β] {f : α → β} {items : List α} {y : β}
    (none : ∀ z ∈ items, f z ≠ y) : (items.map f).count y = 0 := by
  rw [List.count_eq_zero]
  intro member
  obtain ⟨z, inside, same⟩ := List.mem_map.mp member
  exact none z inside same

variable (split : Split middle edges code first) (once : NoTwofoldJumps code first)

include split

theorem instead_eq_iff (reached : Reachable (Edge (lasts code)) first p) :
    instead middle edges b a = p ↔ a = p ∧ (p, b) ∉ edges := by
  unfold instead
  split
  · rename_i member
    exact ⟨fun same => absurd same (split.new.old reached a b),
      fun same => absurd (same.1 ▸ member) same.2⟩
  · rename_i absent
    exact ⟨fun same => ⟨same, same ▸ absent⟩, And.left⟩

theorem instead_eq_middle_iff {q c : Block} (member : (q, c) ∈ edges)
    (reached : Reachable (Edge (lasts code)) first a) :
    instead middle edges b a = middle q c ↔ a = q ∧ b = c := by
  unfold instead
  split
  · exact ⟨split.unmixed a b ‹_› q c member, fun same => by rw [same.1, same.2]⟩
  · rename_i absent
    exact ⟨fun same => absurd same.symm (split.new.old reached q c),
      fun same => absurd (same.1 ▸ same.2 ▸ member) absent⟩

theorem toward_eq_iff (reached : Reachable (Edge (lasts code)) first b) :
    toward middle edges p t = b ↔ t = b ∧ (p, b) ∉ edges := by
  unfold toward
  split
  · rename_i member
    exact ⟨fun same => absurd same (split.new.old reached p t),
      fun same => absurd (same.1 ▸ member) same.2⟩
  · rename_i absent
    exact ⟨fun same => ⟨same, same ▸ absent⟩, And.left⟩

theorem toward_eq_middle_iff {q c : Block} (member : (q, c) ∈ edges)
    (reached : Reachable (Edge (lasts code)) first t) :
    toward middle edges p t = middle q c ↔ p = q ∧ t = c := by
  unfold toward
  split
  · exact ⟨split.unmixed p t ‹_› q c member, fun same => by rw [same.1, same.2]⟩
  · rename_i absent
    exact ⟨fun same => absurd same.symm (split.new.old reached q c),
      fun same => absurd (same.1 ▸ same.2 ▸ member) absent⟩

include once

theorem count_target (member : (p, b) ∈ edges) : (successors (lasts code) p).count b = 1 := by
  obtain ⟨reached, -, edge⟩ := split.edge_of_member member
  exact List.count_eq_one_of_mem (once p reached) edge

/-- The predecessor lists agree with the jumps after the splitting. -/
theorem counts_split (reached : Reachable (Edge (lasts (splitCode middle edges code))) first b)
    (reached' : Reachable (Edge (lasts (splitCode middle edges code))) first p) :
    (splitCode middle edges code b).predecessors.count p =
      (successors (lasts (splitCode middle edges code)) p).count b := by
  rcases (split.reachable_iff once).mp reached with reached | ⟨q, c, member, rfl⟩
  · have comes := split.ssa.comes b reached
    rw [predecessors_splitCode fun p q => split.new.old reached p q]
    rcases (split.reachable_iff once).mp reached' with reached' | ⟨r, d, member', rfl⟩
    · rw [split.successors_split once reached']
      by_cases member : (p, b) ∈ edges
      · rw [count_map_none fun a _ same =>
            ((split.instead_eq_iff reached').mp same).2 member,
          count_map_none fun t _ same => ((split.toward_eq_iff reached).mp same).2 member]
      · rw [count_map fun a _ => (split.instead_eq_iff reached').trans (and_iff_left member),
          count_map fun t _ => (split.toward_eq_iff reached).trans (and_iff_left member)]
        exact split.ssa.counts b reached p reached'
    · rw [successors_splitCode_middle split.unmixed member']
      by_cases same : b = d
      · subst same
        rw [count_map fun a inside => (split.instead_eq_middle_iff member' (comes a inside)).trans
            (and_iff_left rfl),
          split.ssa.counts b reached r (split.edge_of_member member').1,
          split.count_target once member', List.count_singleton_self]
      · rw [count_map_none fun a inside eq =>
          same ((split.instead_eq_middle_iff member' (comes a inside)).mp eq).2]
        exact (List.count_eq_zero.mpr fun inside => same (List.mem_singleton.mp inside)).symm
  · rw [splitCode_middle split.unmixed member]
    obtain ⟨before, behind, edge⟩ := split.edge_of_member member
    rcases (split.reachable_iff once).mp reached' with reached' | ⟨r, d, member', rfl⟩
    · rw [split.successors_split once reached']
      have onward (t : Block) (inside : t ∈ successors (lasts code) p) :=
        split.toward_eq_middle_iff (p := p) member (reached'.step inside)
      by_cases same : p = q
      · subst same
        rw [count_map fun t inside => (onward t inside).trans (and_iff_right rfl),
          split.count_target once member, List.count_singleton_self]
      · rw [count_map_none fun t inside eq => same ((onward t inside).mp eq).1]
        exact List.count_eq_zero.mpr fun inside => same (List.mem_singleton.mp inside)
    · rw [successors_splitCode_middle split.unmixed member']
      obtain ⟨-, behind', -⟩ := split.edge_of_member member'
      rw [List.count_eq_zero.mpr fun inside =>
          split.new.old before r d (List.mem_singleton.mp inside),
        List.count_eq_zero.mpr fun inside =>
          split.new.old behind' q c (List.mem_singleton.mp inside)]

/-- Without the new blocks, a path is one of the program. -/
theorem path_erase {nodes : List Block}
    (path : Path (Edge (lasts (splitCode middle edges code))) first nodes x) :
    (∃ nodes', Path (Edge (lasts code)) first nodes' x ∧ nodes' ⊆ nodes) ∨
      ∃ p b, (p, b) ∈ edges ∧ x = middle p b ∧
        ∃ nodes', Path (Edge (lasts code)) first nodes' p ∧ nodes' ⊆ nodes := by
  induction path with
  | here => exact .inl ⟨_, .here, List.Subset.refl _⟩
  | @step nodes a c path edge ih =>
    rcases ih with ⟨nodes', path', inside⟩ | ⟨p, b, member, rfl, nodes', path', inside⟩
    · rw [Edge, split.successors_split once ⟨nodes', path'⟩] at edge
      obtain ⟨t, edge', rfl⟩ := List.mem_map.mp edge
      by_cases member : (a, t) ∈ edges
      · refine .inr ⟨a, t, member, if_pos member, nodes', path', ?_⟩
        exact List.Subset.trans inside (List.subset_cons_self _ _)
      · rw [toward, if_neg member]
        exact .inl ⟨_, path'.step edge', List.cons_subset_cons _ inside⟩
    · rw [Edge, successors_splitCode_middle split.unmixed member] at edge
      rw [List.mem_singleton.mp edge]
      refine .inl ⟨_, path'.step (split.edge_of_member member).2.2, ?_⟩
      exact List.cons_subset_cons _ inside

theorem dominates_split (dominates : Dominates (Edge (lasts code)) first a b)
    (reached : Reachable (Edge (lasts code)) first b) :
    Dominates (Edge (lasts (splitCode middle edges code))) first a b := by
  intro nodes path
  rcases split.path_erase once path with ⟨nodes', path', inside⟩ | ⟨p, c, -, same, -⟩
  · exact inside (dominates nodes' path')
  · exact absurd same.symm (split.new.old reached p c)

theorem dominates_middle (dominates : Dominates (Edge (lasts code)) first a p)
    (member : (p, t) ∈ edges) :
    Dominates (Edge (lasts (splitCode middle edges code))) first a (middle p t) := by
  intro nodes path
  rcases split.path_erase once path with
    ⟨nodes', path', -⟩ | ⟨q, c, member', same, nodes', path', inside⟩
  · exact absurd ⟨nodes', path'⟩ (split.new.fresh p t)
  · obtain ⟨rfl, -⟩ := split.unmixed _ _ member _ _ member' same
    exact inside (dominates nodes' path')

/-- No jump gets two equal targets. -/
theorem once_split : NoTwofoldJumps (splitCode middle edges code) first := by
  intro b reached
  rcases (split.reachable_iff once).mp reached with reached | ⟨q, c, within, rfl⟩
  · rw [split.successors_split once reached]
    refine List.Nodup.map_on (fun t inside t' inside' same => ?_) (once b reached)
    by_cases within : (b, t') ∈ edges
    · rw [toward, toward, if_pos within] at same
      exact ((split.toward_eq_middle_iff within (reached.step inside)).mp same).2
    · rw [show toward middle edges b t' = t' from if_neg within] at same
      exact ((split.toward_eq_iff (reached.step inside')).mp same).1
  · rw [successors_splitCode_middle split.unmixed within]
    exact List.nodup_singleton c

omit once in
theorem definitions_split (reached : Reachable (Edge (lasts code)) first b) :
    (splitCode middle edges code b).definitions = (code b).definitions := by
  rw [splitCode_old fun p q => split.new.old reached p q]
  unfold OBasicBlock.definitions OBasicBlock.splitAt
  rw [List.map_map]
  rfl

/-- A value that is used in a block of the program was used there before. -/
theorem used_of_old {v : Value} (reached : Reachable (Edge (lasts code)) first b)
    (used : UsedIn (splitCode middle edges code) b v) : UsedIn code b v := by
  have old : splitCode middle edges code b = (code b).splitAt middle edges b :=
    splitCode_old fun p q => split.new.old reached p q
  rcases used with ⟨instruction, member, operand⟩ | operand | ⟨succ, edge, phi, member, operand⟩
  · rw [old] at member
    exact .inl ⟨instruction, member, operand⟩
  · rw [old] at operand
    exact .inr (.inl (operands_splitAt b _ ▸ operand))
  · rw [Edge, split.successors_split once reached] at edge
    obtain ⟨t, edge', rfl⟩ := List.mem_map.mp edge
    by_cases within : (b, t) ∈ edges
    · rw [toward, if_pos within, splitCode_middle split.unmixed within] at member
      cases member
    · have reached' := reached.step edge'
      rw [toward, if_neg within, splitCode_old fun p q => split.new.old reached' p q] at member
      obtain ⟨phi', member', rfl⟩ := List.mem_map.mp member
      have same := split.atOperand_split reached' reached member'
      rw [instead, if_neg within] at same
      exact .inr (.inr ⟨t, edge', phi', member', same.symm.trans operand⟩)

omit once in
/-- A value that is used in a new block was used in the block before it. -/
theorem used_of_middle {v : Value} (within : (p, b) ∈ edges)
    (used : UsedIn (splitCode middle edges code) (middle p b) v) : UsedIn code p v := by
  obtain ⟨reached, reached', edge'⟩ := split.edge_of_member within
  have block : splitCode middle edges code (middle p b) = ⟨[], [], .jump b, [p]⟩ :=
    splitCode_middle split.unmixed within
  rcases used with ⟨instruction, member, -⟩ | operand | ⟨succ, edge, phi, member, operand⟩
  · rw [block] at member
    cases member
  · rw [block] at operand
    cases operand
  · rw [Edge, successors_splitCode_middle split.unmixed within] at edge
    rw [List.mem_singleton.mp edge, splitCode_old fun p q => split.new.old reached' p q] at member
    obtain ⟨phi', member', rfl⟩ := List.mem_map.mp member
    have same := split.atOperand_split reached' reached member'
    rw [instead, if_pos within] at same
    exact .inr (.inr ⟨b, edge', phi', member', same.symm.trans operand⟩)

/-- The program is in static single assignment form after the splitting. -/
theorem ssa_split : StaticSingle (splitCode middle edges code) first where
  comes b reached p member := by
    rw [split.reachable_iff once]
    rcases (split.reachable_iff once).mp reached with reached | ⟨q, c, within, rfl⟩
    · rw [predecessors_splitCode fun p q => split.new.old reached p q] at member
      obtain ⟨a, inside, rfl⟩ := List.mem_map.mp member
      unfold instead
      split
      · rename_i within
        exact .inr ⟨a, b, within, rfl⟩
      · exact .inl (split.ssa.comes b reached a inside)
    · rw [splitCode_middle split.unmixed within] at member
      rw [List.mem_singleton.mp member]
      exact .inl (split.edge_of_member within).1
  counts b reached p reached' := split.counts_split once reached reached'
  blocks b reached phi member := by
    rcases (split.reachable_iff once).mp reached with reached | ⟨q, c, within, rfl⟩
    · rw [splitCode_old fun p q => split.new.old reached p q] at member ⊢
      obtain ⟨phi', member', rfl⟩ := List.mem_map.mp member
      obtain ⟨same, length⟩ := split.ssa.blocks b reached phi' member'
      exact ⟨same.map _, length.trans (List.length_map _).symm⟩
    · rw [splitCode_middle split.unmixed within] at member
      cases member
  start := by
    rw [splitCode_old fun p q => split.new.old reachable_first p q]
    show (code first).phis.map _ = []
    rw [split.ssa.start]
    rfl
  distinct b reached := by
    rcases (split.reachable_iff once).mp reached with reached | ⟨q, c, within, rfl⟩
    · rw [split.definitions_split reached]
      exact split.ssa.distinct b reached
    · rw [splitCode_middle split.unmixed within]
      exact List.nodup_nil
  single b reached c reached' v member member' := by
    rcases (split.reachable_iff once).mp reached with reached | ⟨q, d, within, rfl⟩
    · rw [split.definitions_split reached] at member
      rcases (split.reachable_iff once).mp reached' with reached' | ⟨q, d, within, rfl⟩
      · rw [split.definitions_split reached'] at member'
        exact split.ssa.single b reached c reached' v member member'
      · rw [splitCode_middle split.unmixed within] at member'
        cases member'
    · rw [splitCode_middle split.unmixed within] at member
      cases member
  dominated b reached v member u reached' used := by
    rcases (split.reachable_iff once).mp reached with reached | ⟨q, d, within, rfl⟩
    · rw [split.definitions_split reached] at member
      rcases (split.reachable_iff once).mp reached' with reached' | ⟨q, d, within, rfl⟩
      · exact split.dominates_split once (split.ssa.dominated b reached v member u reached'
          (split.used_of_old once reached' used)) reached'
      · exact split.dominates_middle once (split.ssa.dominated b reached v member q
          (split.edge_of_member within).1 (split.used_of_middle within used)) within
    · rw [splitCode_middle split.unmixed within] at member
      cases member

end Form

end Split

end Egg.Optimizing
