import Egg.Optimizing.DominatorTree
import Mathlib.Data.List.Perm.Subperm

/-! The trees made of the dominators, and the immediate dominators of all blocks. -/
namespace Egg.Optimizing

open Egg.Data Egg.Data.FlowGraph

/-- A tree is known by the index of its block. -/
structure ODominatorTree (Block : Type) where
  blocks : List Block
  dominated : Nat → List Nat

section Model

variable {Block : Type}

namespace ODominatorTree

/-- `from:with:dominators:` -/
def fromWithDominators (all : List Block) (dominators : Nat → Option Nat) :
    Option (ODominatorTree Block) := do
  let dominated ← ((List.range all.length).drop 1).foldlM
    (fun (dominated : Nat → List Nat) child => do
      let imm ← dominators child
      some (Function.update dominated imm (dominated imm ++ [child])))
    (fun _ => [])
  some { blocks := all, dominated }

variable [DecidableEq Block] (tree : ODominatorTree Block)

def setDominators (current : Nat) (children : List Nat) (result : Block → Option Block) :
    Option (Block → Option Block) :=
  children.foldlM (fun result child => do
    let dominator ← tree.blocks[current]?
    let block ← tree.blocks[child]?
    some (Function.update result block (some dominator))) result

/-- The loop of `allImmediateDominators`; the last of the remaining trees is in front. -/
def allImmediateDominatorsFrom : (fuel : Nat) → (remaining : List Nat) →
    (result : Block → Option Block) → Option (Block → Option Block)
  | 0, _, _ => none
  | _ + 1, [], result => some result
  | fuel + 1, current :: remaining, result => do
    let result ← tree.setDominators current (tree.dominated current) result
    allImmediateDominatorsFrom fuel ((tree.dominated current).reverse ++ remaining) result

def allImmediateDominators (fuel : Nat) : Option (Block → Option Block) :=
  tree.allImmediateDominatorsFrom fuel [0] fun _ => none

end ODominatorTree

variable [DecidableEq Block]

/-- The indices of the predecessors, all of which are in the order. -/
def incomingIndices (all : List Block) (predecessors : Block → List Block) (index : Nat) :
    List Nat :=
  match all[index]? with
  | none => []
  | some block => (predecessors block).map all.idxOf

def reversePostOrder [Fintype Block] (last : Block → Last Block) (self : Block) : List Block :=
  (withSuccessorsPostOrder last self).reverse

def dominatorTree [Fintype Block] (last : Block → Last Block) (self : Block)
    (predecessors : Block → List Block) (fuel : Nat) : Option (ODominatorTree Block) := do
  let predecessors := updatePredecessors last self predecessors
  let all := reversePostOrder last self
  let idoms ← improveAll (incomingIndices all predecessors) all.length fuel
    fun index => if index = 0 then some 0 else none
  ODominatorTree.fromWithDominators all idoms

end Model

section Trees

variable {Block : Type} {all : List Block} {idoms : Nat → Option Nat}

/-- The trees that a tree dominates are those whose dominator it is. -/
theorem fromWithDominators_eq (known : ∀ i < all.length, ∃ q, idoms i = some q) :
    ∃ tree, ODominatorTree.fromWithDominators all idoms = some tree ∧ tree.blocks = all ∧
      ∀ i, (tree.dominated i).Nodup ∧
        ∀ j, j ∈ tree.dominated i ↔ 0 < j ∧ j < all.length ∧ idoms j = some i := by
  have added (children : List Nat) (inside : ∀ j ∈ children, j < all.length) :
      ∀ dominated : Nat → List Nat, ∃ dominated', children.foldlM
        (fun (dominated : Nat → List Nat) child => do
          let imm ← idoms child
          some (Function.update dominated imm (dominated imm ++ [child]))) dominated =
            some dominated' ∧
        ∀ i, dominated' i = dominated i ++ children.filter fun j => idoms j = some i := by
    induction children with
    | nil => exact fun dominated => ⟨dominated, rfl, fun i => (List.append_nil _).symm⟩
    | cons child children ih =>
      intro dominated
      obtain ⟨imm, found⟩ := known child (inside child List.mem_cons_self)
      obtain ⟨dominated', ran, lists⟩ := ih
        (fun j member => inside j (List.mem_cons_of_mem _ member))
        (Function.update dominated imm (dominated imm ++ [child]))
      refine ⟨dominated', ?_, fun i => ?_⟩
      · rw [List.foldlM_cons, found]
        exact ran
      · rw [lists, Function.update_apply, List.filter_cons, found]
        by_cases same : i = imm
        · subst same
          rw [if_pos rfl, if_pos (decide_eq_true rfl), List.append_assoc]
          rfl
        · have other : ¬ some imm = some i := fun eq => same (Option.some.inj eq).symm
          rw [if_neg same, if_neg (by rwa [decide_eq_true_iff])]
  have members (j : Nat) : j ∈ (List.range all.length).drop 1 ↔ 0 < j ∧ j < all.length := by
    rw [List.range_eq_range', List.drop_range', List.mem_range'_1]
    omega
  obtain ⟨dominated, ran, lists⟩ :=
    added ((List.range all.length).drop 1) (fun j member => ((members j).mp member).2) fun _ => []
  refine ⟨⟨all, dominated⟩, by rw [ODominatorTree.fromWithDominators, ran]; rfl, rfl, fun i => ?_⟩
  show (dominated i).Nodup ∧ ∀ j, j ∈ dominated i ↔ _
  rw [lists, List.nil_append]
  refine ⟨(List.nodup_range.sublist (List.drop_sublist _ _)).filter _, fun j => ?_⟩
  rw [List.mem_filter, members, decide_eq_true_iff, and_assoc]

variable [DecidableEq Block] {tree : ODominatorTree Block}

theorem setDominators_spec {current : Nat} {children : List Nat} (result : Block → Option Block)
    (inside : current < tree.blocks.length) (insides : ∀ j ∈ children, j < tree.blocks.length) :
    ∃ result', tree.setDominators current children result = some result' ∧
      ∀ b, result' b = if ∃ j ∈ children, tree.blocks[j]? = some b then tree.blocks[current]?
        else result b := by
  obtain ⟨dominator, known⟩ : ∃ d, tree.blocks[current]? = some d :=
    ⟨_, List.getElem?_eq_getElem inside⟩
  unfold ODominatorTree.setDominators
  rw [known]
  induction children generalizing result with
  | nil => exact ⟨result, rfl, fun b => by simp⟩
  | cons child children ih =>
    obtain ⟨block, here⟩ : ∃ b, tree.blocks[child]? = some b :=
      ⟨_, List.getElem?_eq_getElem (insides child List.mem_cons_self)⟩
    obtain ⟨result', ran, found⟩ := ih (Function.update result block (some dominator))
      fun j member => insides j (List.mem_cons_of_mem _ member)
    refine ⟨result', ?_, fun b => ?_⟩
    · rw [List.foldlM_cons, here]
      exact ran
    · rw [found, Function.update_apply]
      by_cases later : ∃ j ∈ children, tree.blocks[j]? = some b
      · obtain ⟨j, member, there⟩ := later
        rw [if_pos ⟨j, member, there⟩, if_pos ⟨j, List.mem_cons_of_mem _ member, there⟩]
      · rw [if_neg later]
        by_cases same : b = block
        · rw [if_pos same, if_pos ⟨child, List.mem_cons_self, same ▸ here⟩]
        · rw [if_neg same, if_neg]
          rintro ⟨j, member, there⟩
          rcases List.mem_cons.mp member with rfl | member
          · exact same (Option.some.inj (there.symm.trans here))
          · exact later ⟨j, member, there⟩

/-- The trees that are processed have set the dominators of those they dominate. -/
structure Visits (all : List Block) (idoms : Nat → Option Nat) (processed remaining : List Nat)
    (result : Block → Option Block) : Prop where
  nodup : (remaining ++ processed).Nodup
  inside : ∀ j ∈ remaining ++ processed, j < all.length
  start : 0 ∈ remaining ++ processed
  children : ∀ j m, 0 < j → j < all.length → idoms j = some m →
    (j ∈ remaining ++ processed ↔ m ∈ processed)
  found : ∀ b d, result b = some d ↔ ∃ j m, 0 < j ∧ idoms j = some m ∧ m ∈ processed ∧
    all[j]? = some b ∧ all[m]? = some d

variable {processed remaining : List Nat} {result : Block → Option Block}

omit [DecidableEq Block] in
theorem Visits.length_le (visits : Visits all idoms processed remaining result) :
    (remaining ++ processed).length ≤ all.length := by
  have subset : remaining ++ processed ⊆ List.range all.length := fun j member =>
    List.mem_range.mpr (visits.inside j member)
  have fewer := (List.subperm_of_subset visits.nodup subset).length_le
  rwa [List.length_range] at fewer

theorem Visits.step {current : Nat} {children : List Nat} (unique : all.Nodup)
    (visits : Visits all idoms processed (current :: remaining) result)
    (fresh : children.Nodup)
    (members : ∀ j, j ∈ children ↔ 0 < j ∧ j < all.length ∧ idoms j = some current)
    {result' : Block → Option Block}
    (set : ∀ b, result' b = if ∃ j ∈ children, all[j]? = some b then all[current]? else result b) :
    Visits all idoms (current :: processed) (children.reverse ++ remaining) result' := by
  have rest := List.nodup_cons.mp visits.nodup
  have unprocessed : current ∉ processed := fun member => rest.1 (List.mem_append_right _ member)
  -- a dominated tree was not met before
  have apart (j : Nat) (member : j ∈ children) : j ∉ current :: (remaining ++ processed) := by
    obtain ⟨positive, inside, found⟩ := (members j).mp member
    exact fun met => unprocessed ((visits.children j current positive inside found).mp met)
  have all' (j : Nat) : j ∈ children.reverse ++ remaining ++ current :: processed ↔
      j ∈ children ∨ j ∈ current :: (remaining ++ processed) := by
    simp only [List.mem_append, List.mem_reverse, List.mem_cons]
    tauto
  constructor
  · rw [List.append_assoc]
    have moved : (remaining ++ current :: processed).Perm (current :: (remaining ++ processed)) :=
      List.perm_middle
    refine List.nodup_append.mpr ⟨List.nodup_reverse.mpr fresh, moved.nodup_iff.mpr visits.nodup,
      fun a member b member' same => ?_⟩
    subst same
    exact apart a (List.mem_reverse.mp member) (moved.mem_iff.mp member')
  · intro j member
    rcases (all' j).mp member with member | member
    · exact ((members j).mp member).2.1
    · exact visits.inside j member
  · exact (all' 0).mpr (.inr visits.start)
  · intro j m positive inside found
    rw [all', members, List.mem_cons (a := m)]
    have before := visits.children j m positive inside found
    constructor
    · rintro (⟨-, -, other⟩ | met)
      · exact .inl (Option.some.inj (found.symm.trans other))
      · exact .inr (before.mp met)
    · rintro (rfl | met)
      · exact .inl ⟨positive, inside, found⟩
      · exact .inr (before.mpr met)
  · intro b d
    rw [set]
    split
    · rename_i now
      obtain ⟨j, member, here⟩ := now
      obtain ⟨positive, inside, found⟩ := (members j).mp member
      constructor
      · intro there
        exact ⟨j, current, positive, found, List.mem_cons_self, here, there⟩
      · rintro ⟨i, m, -, found', -, here', there⟩
        obtain rfl := (List.getElem?_inj inside unique).mp (here.trans here'.symm)
        cases found.symm.trans found'
        exact there
    · rename_i later
      rw [visits.found]
      constructor
      · rintro ⟨j, m, positive, found, member, here, there⟩
        exact ⟨j, m, positive, found, List.mem_cons_of_mem _ member, here, there⟩
      · rintro ⟨j, m, positive, found, member, here, there⟩
        have inside := (List.getElem?_eq_some_iff.mp here).1
        rcases List.mem_cons.mp member with rfl | member
        · exact absurd ⟨j, (members j).mpr ⟨positive, inside, found⟩, here⟩ later
        · exact ⟨j, m, positive, found, member, here, there⟩

/-- The walk over the trees ends with the dominators of all blocks but the first one. -/
theorem allImmediateDominatorsFrom_spec (unique : all.Nodup) (descending : Descending idoms)
    (known : ∀ i < all.length, ∃ q, idoms i = some q) (blocks : tree.blocks = all)
    (lists : ∀ i, (tree.dominated i).Nodup ∧
      ∀ j, j ∈ tree.dominated i ↔ 0 < j ∧ j < all.length ∧ idoms j = some i)
    {fuel : Nat} (enough : all.length < fuel + processed.length)
    (visits : Visits all idoms processed remaining result) : ∃ result',
      tree.allImmediateDominatorsFrom fuel remaining result = some result' ∧
        ∀ b d, result' b = some d ↔ ∃ j m, 0 < j ∧ idoms j = some m ∧
          all[j]? = some b ∧ all[m]? = some d := by
  induction fuel generalizing processed remaining result with
  | zero =>
    have fewer := visits.length_le
    rw [List.length_append] at fewer
    omega
  | succ fuel ih =>
    cases remaining with
    | nil =>
      have met (j : Nat) (inside : j < all.length) : j ∈ processed := by
        induction j using Nat.strongRecOn with
        | _ j earlier =>
          by_cases zero : j = 0
          · exact zero ▸ visits.start
          · obtain ⟨m, found⟩ := known j inside
            have less := descending.less j m zero found
            exact (visits.children j m (Nat.pos_of_ne_zero zero) inside found).mpr
              (earlier m less (Nat.lt_trans less inside))
      refine ⟨result, rfl, fun b d => (visits.found b d).trans ?_⟩
      constructor
      · rintro ⟨j, m, positive, found, -, here, there⟩
        exact ⟨j, m, positive, found, here, there⟩
      · rintro ⟨j, m, positive, found, here, there⟩
        exact ⟨j, m, positive, found, met m (List.getElem?_eq_some_iff.mp there).1, here, there⟩
    | cons current remaining =>
      have inside := visits.inside current List.mem_cons_self
      obtain ⟨fresh, members⟩ := lists current
      obtain ⟨result', ran, set⟩ := @setDominators_spec Block _ tree current
        (tree.dominated current) result (blocks ▸ inside)
        fun j member => blocks ▸ ((members j).mp member).2.1
      rw [blocks] at set
      obtain ⟨result₂, ends, found⟩ := @ih (current :: processed) _ _
        (by rw [List.length_cons]; omega) (visits.step unique fresh members set)
      refine ⟨result₂, ?_, found⟩
      rw [ODominatorTree.allImmediateDominatorsFrom, ran]
      exact ends

end Trees

section Indices

variable {Block : Type} [DecidableEq Block] [Fintype Block] {last : Block → Last Block}
  {self : Block} {predecessors : Block → List Block}

theorem nodup_reversePostOrder (last : Block → Last Block) (self : Block) :
    (reversePostOrder last self).Nodup :=
  List.nodup_reverse.mpr (nodup_postOrder last self)

theorem mem_reversePostOrder {b : Block} :
    b ∈ reversePostOrder last self ↔ Reachable (Edge last) self b := by
  rw [reversePostOrder, List.mem_reverse, mem_postOrder]

theorem idxOf_self : (reversePostOrder last self).idxOf self = 0 := by
  obtain ⟨new, seen', found, -⟩ := withSuccessorsPostOrder_traversal last self
  rw [reversePostOrder, found, List.reverse_append]
  exact List.idxOf_cons_self

theorem getElem?_idxOf {b : Block} (reachable : Reachable (Edge last) self b) :
    (reversePostOrder last self)[(reversePostOrder last self).idxOf b]? = some b :=
  List.getElem?_idxOf (mem_reversePostOrder.mpr reachable)

theorem idxOf_inj {a b : Block} (reachable : Reachable (Edge last) self a)
    (reachable' : Reachable (Edge last) self b)
    (same : (reversePostOrder last self).idxOf a = (reversePostOrder last self).idxOf b) :
    a = b := by
  have one := @getElem?_idxOf _ _ _ last self a reachable
  rw [same, getElem?_idxOf reachable'] at one
  exact (Option.some.inj one).symm

theorem mem_incomingIndices {i j : Nat} :
    i ∈ incomingIndices (reversePostOrder last self) (updatePredecessors last self predecessors) j ↔
      ∃ a b, (reversePostOrder last self)[j]? = some b ∧ Reachable (Edge last) self a ∧
        Edge last a b ∧ (reversePostOrder last self).idxOf a = i := by
  unfold incomingIndices
  cases found : (reversePostOrder last self)[j]? with
  | none => simp
  | some b =>
    have reachable : Reachable (Edge last) self b :=
      mem_reversePostOrder.mp (List.mem_of_getElem? found)
    constructor
    · intro member
      obtain ⟨a, member, same⟩ := List.mem_map.mp member
      obtain ⟨reached, edge⟩ := (mem_updatePredecessors predecessors reachable).mp member
      exact ⟨a, b, rfl, reached, edge, same⟩
    · rintro ⟨a, b', found', reached, edge, same⟩
      cases found'
      have member := (mem_updatePredecessors predecessors reachable).mpr ⟨reached, edge⟩
      exact List.mem_map.mpr ⟨a, member, same⟩

/-- The indices form such a graph when no jump goes to the first block. -/
theorem numbered_incomingIndices (entry : ∀ b, Reachable (Edge last) self b → ¬ Edge last b self) :
    Numbered (incomingIndices (reversePostOrder last self)
      (updatePredecessors last self predecessors)) (reversePostOrder last self).length where
  positive := List.length_pos_of_mem (mem_reversePostOrder.mpr (@reachable_first _ _ self))
  start := by
    apply List.eq_nil_iff_forall_not_mem.mpr
    intro i member
    obtain ⟨a, b, found, reached, edge, -⟩ := mem_incomingIndices.mp member
    have here := @getElem?_idxOf _ _ _ last self self reachable_first
    rw [idxOf_self, found] at here
    cases here
    exact entry a reached edge
  forward j positive inside := by
    obtain ⟨b, found⟩ : ∃ b, (reversePostOrder last self)[j]? = some b :=
      ⟨_, List.getElem?_eq_getElem inside⟩
    have reachable : Reachable (Edge last) self b :=
      mem_reversePostOrder.mp (List.mem_of_getElem? found)
    have index : (reversePostOrder last self).idxOf b = j := by
      have same := found.trans (getElem?_idxOf reachable).symm
      exact ((List.getElem?_inj inside (nodup_reversePostOrder last self)).mp same).symm
    have apart : b ≠ self := fun same => by
      rw [same, idxOf_self] at index
      omega
    -- a block comes after one that leads to it
    obtain ⟨before, after, split⟩ := List.append_of_mem ((mem_postOrder last self).mpr reachable)
    obtain ⟨a, later, edge⟩ := postOrder_parent last self apart split
    have reached : Reachable (Edge last) self a := (mem_postOrder last self).mp (by
      rw [split]
      exact List.mem_append_right _ (List.mem_cons_of_mem _ later))
    refine ⟨_, mem_incomingIndices.mpr ⟨a, b, found, reached, edge, rfl⟩, ?_⟩
    have order : reversePostOrder last self = after.reverse ++ (b :: before.reverse) := by
      rw [reversePostOrder, split, List.reverse_append, List.reverse_cons, List.append_assoc]
      rfl
    have unique := nodup_reversePostOrder last self
    rw [order] at unique
    have outside : b ∉ after.reverse := fun member =>
      (List.nodup_append.mp unique).2.2 b member b List.mem_cons_self rfl
    rw [← index, order, List.idxOf_append_of_mem (List.mem_reverse.mpr later),
      List.idxOf_append_of_notMem outside]
    have less := List.idxOf_lt_length_of_mem (List.mem_reverse.mpr later)
    omega
  inside j p member := by
    obtain ⟨a, b, found, reached, -, rfl⟩ := mem_incomingIndices.mp member
    exact ⟨List.idxOf_lt_length_of_mem (mem_reversePostOrder.mpr reached),
      (List.getElem?_eq_some_iff.mp found).1⟩

/-- The dominators of the indices are those of the blocks. -/
theorem dominates_idxOf_iff {a b : Block} (reachable : Reachable (Edge last) self a)
    (reachable' : Reachable (Edge last) self b) :
    Dominates (fun p j => p ∈ incomingIndices (reversePostOrder last self)
      (updatePredecessors last self predecessors) j) 0
        ((reversePostOrder last self).idxOf a) ((reversePostOrder last self).idxOf b) ↔
      Dominates (Edge last) self a b := by
  have maps (c d : Block) (reached : Reachable (Edge last) self c) (edge : Edge last c d) :
      (reversePostOrder last self).idxOf c ∈ incomingIndices (reversePostOrder last self)
        (updatePredecessors last self predecessors) ((reversePostOrder last self).idxOf d) :=
    mem_incomingIndices.mpr ⟨c, d, getElem?_idxOf (reached.step edge), reached, edge, rfl⟩
  constructor
  · intro dominates
    rw [← @idxOf_self _ _ _ last self] at dominates
    exact Dominates.of_map maps (fun c d reached reached' => idxOf_inj reached reached') reachable
      dominates
  · intro dominates
    have back (c : Block) (reached : Reachable (Edge last) self c) :
        (reversePostOrder last self).getD ((reversePostOrder last self).idxOf c) self = c := by
      rw [List.getD_eq_getElem?_getD, getElem?_idxOf reached]
      rfl
    have inside (i : Nat) (reached : Reachable (fun p j => p ∈ incomingIndices
        (reversePostOrder last self) (updatePredecessors last self predecessors) j) 0 i) :
        i < (reversePostOrder last self).length := by
      obtain ⟨nodes, path⟩ := reached
      cases path with
      | here => exact List.length_pos_of_mem (mem_reversePostOrder.mpr (@reachable_first _ _ self))
      | step _ edge =>
        obtain ⟨c, d, found, -⟩ := mem_incomingIndices.mp edge
        exact (List.getElem?_eq_some_iff.mp found).1
    obtain ⟨nodes, path⟩ := reachable
    have reached := @FlowGraph.Path.map Block (Edge last) self a nodes Nat (fun p j => p ∈ incomingIndices
      (reversePostOrder last self) (updatePredecessors last self predecessors) j)
      (fun c => (reversePostOrder last self).idxOf c) maps path
    rw [idxOf_self] at reached
    refine @Dominates.of_map _ _ 0 _ _ _ (Edge last)
      (fun i => (reversePostOrder last self).getD i self) (fun i j _ edge => ?_)
      (fun i j one other same => ?_) ⟨_, reached⟩ ?_
    · obtain ⟨c, d, found, reached, next, rfl⟩ := mem_incomingIndices.mp edge
      rw [back c reached, List.getD_eq_getElem?_getD, found]
      exact next
    · have within := inside i one
      have within' := inside j other
      rw [List.getD_eq_getElem?_getD, List.getElem?_eq_getElem within, List.getD_eq_getElem?_getD,
        List.getElem?_eq_getElem within'] at same
      exact (nodup_reversePostOrder last self).getElem_inj_iff.mp same
    · have start := back self reachable_first
      rw [idxOf_self] at start
      rw [start, back a ⟨nodes, path⟩, back b reachable']
      exact dominates

/-- The parents of the indices are the immediate dominators. -/
theorem immediatelyDominates_of_parent {idoms : Nat → Option Nat} (descending : Descending idoms)
    (chains : ∀ d j, j < (reversePostOrder last self).length → (Chain idoms d j ↔
      Dominates (fun p j => p ∈ incomingIndices (reversePostOrder last self)
        (updatePredecessors last self predecessors) j) 0 d j)) {b d : Block} {j m : Nat}
    (positive : 0 < j) (found : idoms j = some m)
    (here : (reversePostOrder last self)[j]? = some b)
    (there : (reversePostOrder last self)[m]? = some d) :
    ImmediatelyDominates (Edge last) self d b := by
  have chain_iff {x y : Block} (reachable : Reachable (Edge last) self x)
      (reachable' : Reachable (Edge last) self y) :
      Chain idoms ((reversePostOrder last self).idxOf x) ((reversePostOrder last self).idxOf y) ↔
        Dominates (Edge last) self x y :=
    (chains _ _ (List.idxOf_lt_length_of_mem (mem_reversePostOrder.mpr reachable'))).trans
      (dominates_idxOf_iff reachable reachable')
  have index {x : Block} {i : Nat} (held : (reversePostOrder last self)[i]? = some x) :
      Reachable (Edge last) self x ∧ (reversePostOrder last self).idxOf x = i := by
    have reachable : Reachable (Edge last) self x :=
      mem_reversePostOrder.mp (List.mem_of_getElem? held)
    have same := held.trans (getElem?_idxOf reachable).symm
    exact ⟨reachable, ((List.getElem?_inj (List.getElem?_eq_some_iff.mp held).1
      (nodup_reversePostOrder last self)).mp same).symm⟩
  obtain ⟨reachable, rfl⟩ := index here
  obtain ⟨reachable', rfl⟩ := index there
  have less := descending.less _ _ (Nat.ne_of_gt positive) found
  refine ⟨⟨(chain_iff reachable' reachable).mp (.up found .here), fun same => ?_⟩,
    fun c strict => ?_⟩
  · rw [same] at less
    exact Nat.lt_irrefl _ less
  · have within := strict.1.reachable reachable
    have chain := (chain_iff within reachable).mpr strict.1
    exact (chain_iff within reachable').mp
      (chain.of_parent (fun same => strict.2 (idxOf_inj within reachable same)) found)

/-- Each block but the first one is mapped to its immediate dominator. -/
theorem immediateDominators_exact (predecessors : Block → List Block)
    (entry : ∀ b, Reachable (Edge last) self b → ¬ Edge last b self) :
    ∃ idoms, Converges (fun fuel => (dominatorTree last self predecessors fuel).bind fun tree =>
      tree.allImmediateDominators fuel) idoms ∧
        (∀ b, Reachable (Edge last) self b → b ≠ self → ∃ d, idoms b = some d) ∧
        ∀ b d, idoms b = some d → b ≠ self ∧ Reachable (Edge last) self b ∧
          ImmediatelyDominates (Edge last) self d b := by
  have unique := nodup_reversePostOrder last self
  obtain ⟨parents, ⟨bound, ended⟩, settled, chains⟩ :=
    improveAll_exact (@numbered_incomingIndices _ _ _ last self predecessors entry)
  obtain ⟨tree, built, blocks, lists⟩ := fromWithDominators_eq settled.known
  have positive : 0 < (reversePostOrder last self).length :=
    List.length_pos_of_mem (mem_reversePostOrder.mpr (@reachable_first _ _ self))
  have begun : Visits (reversePostOrder last self) parents [] [0] fun _ => none := by
    refine ⟨List.nodup_singleton 0, fun j member => List.mem_singleton.mp member ▸ positive,
      List.mem_cons_self, fun j m positive' _ _ => ?_, fun b d => ?_⟩
    · simp only [List.append_nil, List.mem_singleton, List.not_mem_nil, iff_false]
      omega
    · simp
  have walked (fuel : Nat) (enough : (reversePostOrder last self).length < fuel) :=
    allImmediateDominatorsFrom_spec unique settled.toDescending settled.known blocks lists
      (show (reversePostOrder last self).length < fuel + ([] : List Nat).length from enough) begun
  obtain ⟨idoms, -, found⟩ := walked _ (Nat.lt_succ_self _)
  refine ⟨idoms, ⟨max bound ((reversePostOrder last self).length + 1), fun fuel enough => ?_⟩,
    fun b reachable apart => ?_, fun b d some => ?_⟩
  · obtain ⟨idoms', ran, found'⟩ := walked fuel (by omega)
    have same : idoms' = idoms := by
      funext b
      apply Option.ext
      intro d
      exact (found' b d).trans (found b d).symm
    have tree' : dominatorTree last self predecessors fuel = some tree := by
      simp only [dominatorTree, ended fuel (by omega)]
      exact built
    simp only [tree', Option.bind_some]
    exact same ▸ ran
  · have inside := List.idxOf_lt_length_of_mem (mem_reversePostOrder.mpr reachable)
    obtain ⟨m, parent⟩ := settled.known _ inside
    have nonzero : (reversePostOrder last self).idxOf b ≠ 0 := fun zero =>
      apart (idxOf_inj reachable reachable_first (zero.trans idxOf_self.symm))
    have less := settled.less _ m nonzero parent
    exact ⟨_, (found b _).mpr ⟨_, m, Nat.pos_of_ne_zero nonzero, parent, getElem?_idxOf reachable,
      List.getElem?_eq_getElem (Nat.lt_trans less inside)⟩⟩
  · obtain ⟨j, m, positive', parent, here, there⟩ := (found b d).mp some
    have immediate := immediatelyDominates_of_parent settled.toDescending chains positive' parent
      here there
    refine ⟨fun same => ?_, mem_reversePostOrder.mp (List.mem_of_getElem? here), immediate⟩
    subst same
    have strict := immediate.1
    exact strict.2 (eq_first_of_dominates strict.1)

end Indices

end Egg.Optimizing
