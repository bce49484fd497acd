import Egg.Data.FlowGraph
import Mathlib.Data.Fintype.Card

/-! Basic blocks, the order of a traversal and the predecessors. -/
namespace Egg.Optimizing

open Egg.Data.FlowGraph

/-- The last instruction of a block; a return has no targets. -/
inductive Last (Block : Type)
  | leave
  | jump (target : Block)
  | jumpConditional (target implicitTarget : Block)

namespace Last

variable {Block : Type}

def targets : Last Block → List Block
  | leave => []
  | jump target => [target]
  | jumpConditional target implicitTarget => [implicitTarget, target]

/-- `ifHasExplicitSuccesor:ifHasImplicitSuccesor:`, in the order of the evaluation. -/
def followed : Last Block → List Block
  | leave => []
  | jump target => [target]
  | jumpConditional target implicitTarget => [target, implicitTarget]

theorem mem_followed {last : Last Block} {b : Block} : b ∈ last.followed ↔ b ∈ last.targets := by
  cases last with
  | leave => exact Iff.rfl
  | jump target => exact Iff.rfl
  | jumpConditional target implicitTarget =>
    simp only [followed, targets, List.mem_cons, List.not_mem_nil, or_false]
    exact or_comm

end Last

section Model

variable {Block : Type} (last : Block → Last Block)

def successors (block : Block) : List Block :=
  (last block).targets

def Edge (a b : Block) : Prop :=
  b ∈ successors last a

variable [DecidableEq Block]

instance (a b : Block) : Decidable (Edge last a b) :=
  inferInstanceAs (Decidable (_ ∈ _))

/-- `postOrder:seen:`, with the result and what was seen; one call visits each block at most. -/
def postOrder : (fuel : Nat) → (self : Block) → List Block × List Block → List Block × List Block
  | 0, _, state => state
  | fuel + 1, self, (result, seen) =>
    let (result, seen) := (last self).followed.foldl
      (fun state next => if next ∈ state.2 then state else postOrder fuel next state)
      (result, self :: seen)
    (result ++ [self], seen)

def withSuccessorsPostOrder [Fintype Block] (self : Block) : List Block :=
  (postOrder last (Fintype.card Block) self ([], [])).1

/-- The lists that `updatePredecessors` makes; blocks that are not reached keep theirs. -/
def updatePredecessors [Fintype Block] (self : Block) (predecessors : Block → List Block) :
    Block → List Block :=
  let all := withSuccessorsPostOrder last self
  let cleaned := all.foldl (fun predecessors block => Function.update predecessors block [])
    predecessors
  all.foldl (fun predecessors block =>
    (successors last block).foldl (fun predecessors successor =>
      Function.update predecessors successor (predecessors successor ++ [block])) predecessors)
    cleaned

end Model

section Traversal

variable {Block : Type} {last : Block → Last Block} {seen : List Block}

/-- What a traversal from some blocks appends and has seen after it. -/
structure Traversal (last : Block → Last Block) (seen roots new seen' : List Block) : Prop where
  members : ∀ x, x ∈ seen' ↔ x ∈ seen ∨ x ∈ new
  nodup : new.Nodup
  fresh : ∀ x ∈ new, x ∉ seen
  closed : ∀ x ∈ new, ∀ y, Edge last x y → y ∈ seen'
  visited : ∀ x ∈ roots, x ∈ seen'
  parents : ∀ before x after, new = before ++ x :: after →
    x ∈ roots ∨ ∃ y ∈ after, Edge last y x

theorem Traversal.nothing {roots : List Block} (visited : ∀ x ∈ roots, x ∈ seen) :
    Traversal last seen roots [] seen where
  members x := by simp
  nodup := List.nodup_nil
  fresh _ member := absurd member List.not_mem_nil
  closed _ member := absurd member List.not_mem_nil
  visited := visited
  parents before x after same := by simp at same

/-- One traversal after another. -/
theorem Traversal.append {roots roots' new new' seen' seen₂ : List Block}
    (one : Traversal last seen roots new seen') (other : Traversal last seen' roots' new' seen₂) :
    Traversal last seen (roots ++ roots') (new ++ new') seen₂ where
  members x := by
    rw [other.members, one.members, List.mem_append, or_assoc]
  nodup := List.nodup_append.mpr ⟨one.nodup, other.nodup, fun a member b member' same =>
    other.fresh b member' ((one.members b).mpr (.inr (same ▸ member)))⟩
  fresh x member seen := by
    rcases List.mem_append.mp member with member | member
    · exact one.fresh x member seen
    · exact other.fresh x member ((one.members x).mpr (.inl seen))
  closed x member y edge := by
    rcases List.mem_append.mp member with member | member
    · exact (other.members y).mpr (.inl (one.closed x member y edge))
    · exact other.closed x member y edge
  visited x member := by
    rcases List.mem_append.mp member with member | member
    · exact (other.members x).mpr (.inl (one.visited x member))
    · exact other.visited x member
  parents before x after same := by
    rcases List.append_eq_append_iff.mp same with ⟨more, rfl, split⟩ | ⟨more, rfl, split⟩
    · rcases other.parents more x after split with root | ⟨y, later, edge⟩
      · exact .inl (List.mem_append_right _ root)
      · exact .inr ⟨y, later, edge⟩
    · cases more with
      | nil =>
        rcases other.parents [] x after split.symm with root | ⟨y, later, edge⟩
        · exact .inl (List.mem_append_right _ root)
        · exact .inr ⟨y, later, edge⟩
      | cons head more =>
        obtain ⟨rfl, rfl⟩ := List.cons.inj split
        rcases one.parents before x more rfl with root | ⟨y, later, edge⟩
        · exact .inl (List.mem_append_left _ root)
        · exact .inr ⟨y, List.mem_append_left _ later, edge⟩

/-- A block is appended after what is reached from it. -/
theorem Traversal.root {self : Block} {new seen' : List Block} (fresh : self ∉ seen)
    (inner : Traversal last (self :: seen) (last self).followed new seen') :
    Traversal last seen [self] (new ++ [self]) seen' where
  members x := by
    rw [inner.members, List.mem_cons, List.mem_append, List.mem_singleton]
    tauto
  nodup := List.nodup_append.mpr ⟨inner.nodup, List.nodup_singleton self,
    fun a member b same eq => by
    rw [List.mem_singleton.mp same] at eq
    exact inner.fresh a member (eq ▸ List.mem_cons_self)⟩
  fresh x member within := by
    rcases List.mem_append.mp member with member | member
    · exact inner.fresh x member (List.mem_cons_of_mem _ within)
    · exact fresh (List.mem_singleton.mp member ▸ within)
  closed x member y edge := by
    rcases List.mem_append.mp member with member | member
    · exact inner.closed x member y edge
    · rw [List.mem_singleton.mp member] at edge
      exact inner.visited y (Last.mem_followed.mpr edge)
  visited x member := by
    rw [List.mem_singleton.mp member]
    exact (inner.members self).mpr (.inl List.mem_cons_self)
  parents before x after same := by
    rcases List.eq_nil_or_concat after with rfl | ⟨after, z, rfl⟩
    · obtain ⟨-, same⟩ := List.append_inj' same rfl
      exact .inl (List.mem_singleton.mpr (List.cons.inj same).1.symm)
    · rw [List.concat_eq_append, ← List.cons_append, ← List.append_assoc] at same
      obtain ⟨split, same⟩ := List.append_inj' same rfl
      obtain rfl := (List.cons.inj same).1
      rw [List.concat_eq_append]
      rcases inner.parents before x after split with root | ⟨y, later, edge⟩
      · exact .inr ⟨self, List.mem_append_right _ List.mem_cons_self, Last.mem_followed.mp root⟩
      · exact .inr ⟨y, List.mem_append_left _ later, edge⟩

variable [DecidableEq Block] [Fintype Block]

/-- How many blocks are not seen yet. -/
def unseen (seen : List Block) : Nat :=
  (Finset.univ.filter (· ∉ seen)).card

theorem unseen_le {seen' : List Block} (more : ∀ x ∈ seen, x ∈ seen') :
    unseen seen' ≤ unseen seen := by
  apply Finset.card_le_card
  intro x member
  rw [Finset.mem_filter] at member ⊢
  exact ⟨member.1, fun within => member.2 (more x within)⟩

theorem unseen_cons_lt {self : Block} (fresh : self ∉ seen) :
    unseen (self :: seen) < unseen seen := by
  apply Finset.card_lt_card
  refine ⟨fun x member => ?_, fun all => ?_⟩
  · rw [Finset.mem_filter] at member ⊢
    exact ⟨member.1, fun within => member.2 (List.mem_cons_of_mem _ within)⟩
  · have member := all (Finset.mem_filter.mpr ⟨Finset.mem_univ self, fresh⟩)
    exact (Finset.mem_filter.mp member).2 List.mem_cons_self

theorem postOrder_traversal {fuel : Nat} {self : Block} (enough : unseen seen ≤ fuel)
    (fresh : self ∉ seen) (result : List Block) : ∃ new seen',
      postOrder last fuel self (result, seen) = (result ++ (new ++ [self]), seen') ∧
        Traversal last seen [self] (new ++ [self]) seen' := by
  induction fuel generalizing self seen result with
  | zero =>
    have fewer := unseen_cons_lt fresh
    omega
  | succ fuel ih =>
    have fewer := unseen_cons_lt fresh
    -- the blocks that follow are visited in turn
    have visits (roots : List Block) : ∀ (result seen : List Block), unseen seen ≤ fuel →
        ∃ new seen', roots.foldl (fun state next =>
          if next ∈ state.2 then state else postOrder last fuel next state) (result, seen) =
            (result ++ new, seen') ∧ Traversal last seen roots new seen' := by
      induction roots with
      | nil =>
        intro result seen _
        exact ⟨[], seen, by rw [List.foldl_nil, List.append_nil],
          .nothing fun _ member => absurd member List.not_mem_nil⟩
      | cons next roots rest =>
        intro result seen enough
        rw [List.foldl_cons]
        by_cases known : next ∈ seen
        · obtain ⟨new, seen', found, traversed⟩ := rest result seen enough
          rw [if_pos known, found]
          have none : Traversal last seen [next] [] seen := .nothing fun x member => by
            rwa [List.mem_singleton.mp member]
          exact ⟨new, seen', rfl, none.append traversed⟩
        · obtain ⟨new, seen', found, traversed⟩ := ih enough known result
          have more := traversed.members
          obtain ⟨new', seen₂, found', traversed'⟩ := rest (result ++ (new ++ [next])) seen'
            ((unseen_le fun x within => (more x).mpr (.inl within)).trans enough)
          rw [if_neg known, found, found']
          exact ⟨_, _, by rw [List.append_assoc], traversed.append traversed'⟩
    obtain ⟨new, seen', found, traversed⟩ := visits (last self).followed result (self :: seen)
      (by omega)
    refine ⟨new, seen', ?_, .root fresh traversed⟩
    rw [postOrder, found]
    exact Prod.ext (List.append_assoc ..) rfl

variable (last) (self : Block)

/-- The order lists what is reached, each block once and the first one at the end. -/
theorem withSuccessorsPostOrder_traversal : ∃ new seen',
    withSuccessorsPostOrder last self = new ++ [self] ∧
      Traversal last [] [self] (new ++ [self]) seen' := by
  have enough : unseen ([] : List Block) ≤ Fintype.card Block := Finset.card_le_univ _
  obtain ⟨new, seen', found, traversed⟩ :=
    @postOrder_traversal Block last [] _ _ _ self enough List.not_mem_nil []
  exact ⟨new, seen', by rw [withSuccessorsPostOrder, found, List.nil_append], traversed⟩

theorem nodup_postOrder : (withSuccessorsPostOrder last self).Nodup := by
  obtain ⟨new, seen', found, traversed⟩ := withSuccessorsPostOrder_traversal last self
  rw [found]
  exact traversed.nodup

theorem mem_postOrder {b : Block} :
    b ∈ withSuccessorsPostOrder last self ↔ Reachable (Edge last) self b := by
  obtain ⟨new, seen', found, traversed⟩ := withSuccessorsPostOrder_traversal last self
  rw [found]
  constructor
  · intro member
    obtain ⟨before, after, split⟩ := List.append_of_mem member
    -- what reaches a block comes after it
    induction size : after.length using Nat.strongRecOn generalizing b before after with
    | _ n ih =>
      rcases traversed.parents before b after split with root | ⟨y, later, edge⟩
      · rw [List.mem_singleton.mp root]
        exact reachable_first
      · obtain ⟨before', after', split'⟩ := List.append_of_mem later
        have shorter : after'.length < n := by
          rw [← size, split', List.length_append, List.length_cons]
          omega
        have reached := ih after'.length shorter
          (by rw [split]; exact List.mem_append_right _ (List.mem_cons_of_mem _ later))
          (before ++ b :: before') after'
          (by rw [split, split', List.append_assoc, List.cons_append]) rfl
        exact reached.step edge
  · rintro ⟨nodes, path⟩
    induction path with
    | here => exact List.mem_append_right _ List.mem_cons_self
    | step path edge ih =>
      have seen := traversed.closed _ ih _ edge
      exact ((traversed.members _).mp seen).resolve_left List.not_mem_nil

/-- Every other block follows one that leads to it, in the reversed order. -/
theorem postOrder_parent {before after : List Block} {b : Block} (apart : b ≠ self)
    (split : withSuccessorsPostOrder last self = before ++ b :: after) :
    ∃ y ∈ after, Edge last y b := by
  obtain ⟨new, seen', found, traversed⟩ := withSuccessorsPostOrder_traversal last self
  rw [found] at split
  exact (traversed.parents before b after split).resolve_left fun root =>
    apart (List.mem_singleton.mp root)

end Traversal

section Predecessors

variable {Block : Type} [DecidableEq Block] {last : Block → Last Block}

/-- All given blocks get their values. -/
theorem foldl_update {γ : Type} (value : Block → γ) (blocks : List Block) (values : Block → γ)
    (b : Block) : blocks.foldl (fun values block => Function.update values block (value block))
      values b = if b ∈ blocks then value b else values b := by
  induction blocks generalizing values with
  | nil => rfl
  | cons block blocks ih =>
    rw [List.foldl_cons, ih, Function.update_apply]
    by_cases later : b ∈ blocks
    · rw [if_pos later, if_pos (List.mem_cons_of_mem _ later)]
    · by_cases same : b = block
      · rw [if_neg later, if_pos same, if_pos (same ▸ List.mem_cons_self), same]
      · rw [if_neg later, if_neg same, if_neg fun member =>
          (List.mem_cons.mp member).elim same later]

theorem foldl_update_add (block : Block) (targets : List Block) (predecessors : Block → List Block)
    (b : Block) : targets.foldl (fun predecessors successor =>
      Function.update predecessors successor (predecessors successor ++ [block])) predecessors b =
        predecessors b ++ List.replicate (targets.count b) block := by
  induction targets generalizing predecessors with
  | nil => exact (List.append_nil _).symm
  | cons target targets ih =>
    rw [List.foldl_cons, ih, Function.update_apply, List.count_cons]
    by_cases same : b = target
    · subst same
      rw [if_pos rfl, if_pos (beq_self_eq_true _), List.append_assoc, Nat.add_comm,
        List.replicate_add]
      rfl
    · rw [if_neg same, if_neg (by simpa using fun eq => same eq.symm), Nat.add_zero]

theorem updatePredecessors_eq [Fintype Block] (self : Block) (predecessors : Block → List Block)
    {b : Block} (reached : b ∈ withSuccessorsPostOrder last self) :
    updatePredecessors last self predecessors b = (withSuccessorsPostOrder last self).flatMap
      fun block => List.replicate ((successors last block).count b) block := by
  have added (blocks : List Block) (predecessors : Block → List Block) :
      blocks.foldl (fun predecessors block => (successors last block).foldl
        (fun predecessors successor => Function.update predecessors successor
          (predecessors successor ++ [block])) predecessors) predecessors b =
        predecessors b ++ blocks.flatMap fun block =>
          List.replicate ((successors last block).count b) block := by
    induction blocks generalizing predecessors with
    | nil => exact (List.append_nil _).symm
    | cons block blocks ih =>
      rw [List.foldl_cons, ih, foldl_update_add, List.flatMap_cons, List.append_assoc]
  rw [updatePredecessors, added, foldl_update fun _ => [], if_pos reached, List.nil_append]

/-- The predecessor lists agree with the targets of the jumps. -/
theorem mem_updatePredecessors [Fintype Block] {self : Block} (predecessors : Block → List Block)
    {a b : Block} (reached : Reachable (Edge last) self b) :
    a ∈ updatePredecessors last self predecessors b ↔
      Reachable (Edge last) self a ∧ Edge last a b := by
  rw [updatePredecessors_eq self predecessors ((mem_postOrder last self).mpr reached),
    List.mem_flatMap]
  constructor
  · rintro ⟨block, member, copy⟩
    obtain ⟨some, rfl⟩ := List.mem_replicate.mp copy
    exact ⟨(mem_postOrder last self).mp member,
      List.count_pos_iff.mp (Nat.pos_of_ne_zero some)⟩
  · rintro ⟨reached', edge⟩
    exact ⟨a, (mem_postOrder last self).mpr reached', List.mem_replicate.mpr
      ⟨(List.count_pos_iff.mpr edge).ne', rfl⟩⟩

end Predecessors

end Egg.Optimizing
