import Mathlib.Data.List.Basic
import Mathlib.Logic.Relation

/-! Paths of a graph from its first node, and the nodes that lie on all of them. -/
namespace Egg.Data.FlowGraph

variable {β : Type} (edge : β → β → Prop) (first : β)

/-- A path from the first node, with the last of its nodes in front. -/
inductive Path : List β → β → Prop
  | here : Path [first] first
  | step {nodes : List β} {a b : β} : Path nodes a → edge a b → Path (b :: nodes) b

def Reachable (b : β) : Prop :=
  ∃ nodes, Path edge first nodes b

/-- The node lies on every path to `b`. -/
def Dominates (d b : β) : Prop :=
  ∀ nodes, Path edge first nodes b → d ∈ nodes

def StrictlyDominates (d b : β) : Prop :=
  Dominates edge first d b ∧ d ≠ b

/-- The strict dominator that all others dominate. -/
def ImmediatelyDominates (d b : β) : Prop :=
  StrictlyDominates edge first d b ∧
    ∀ c, StrictlyDominates edge first c b → Dominates edge first c d

/-- A predecessor of the node is dominated, and the node itself not strictly. -/
def InFrontier (b y : β) : Prop :=
  ∃ p, Reachable edge first p ∧ edge p y ∧ Dominates edge first b p ∧
    ¬ StrictlyDominates edge first b y

variable {edge first} {a b c d : β} {nodes : List β}

theorem reachable_first : Reachable edge first first :=
  ⟨_, .here⟩

theorem Reachable.step (reachable : Reachable edge first a) (next : edge a b) :
    Reachable edge first b := by
  obtain ⟨nodes, path⟩ := reachable
  exact ⟨_, path.step next⟩

namespace Path

theorem target_mem (path : Path edge first nodes b) : b ∈ nodes := by
  cases path <;> exact List.mem_cons_self

theorem first_mem (path : Path edge first nodes b) : first ∈ nodes := by
  induction path with
  | here => exact List.mem_cons_self
  | step _ _ ih => exact List.mem_cons_of_mem _ ih

/-- A path up to one of its nodes. -/
theorem prefix_of_mem (path : Path edge first nodes b) (member : a ∈ nodes) :
    ∃ before, Path edge first before a ∧ before <:+ nodes := by
  induction path with
  | here =>
    obtain rfl := List.mem_singleton.mp member
    exact ⟨_, .here, List.suffix_refl _⟩
  | step path next ih =>
    rcases List.mem_cons.mp member with rfl | member
    · exact ⟨_, path.step next, List.suffix_refl _⟩
    · obtain ⟨before, path', inside⟩ := ih member
      exact ⟨before, path', inside.trans (List.suffix_cons _ _)⟩

/-- The target is the node in front. -/
theorem unique (path : Path edge first nodes a) (other : Path edge first nodes b) : a = b := by
  cases path <;> cases other <;> rfl

theorem reachable_of_mem (path : Path edge first nodes b) (member : a ∈ nodes) :
    Reachable edge first a := by
  obtain ⟨before, path', -⟩ := path.prefix_of_mem member
  exact ⟨before, path'⟩

/-- Going on without a node keeps clear of it. -/
theorem extend (path : Path edge first nodes a) (apart : d ∉ nodes)
    (walk : Relation.ReflTransGen (fun a b => edge a b ∧ b ≠ d) a b) :
    ∃ nodes, Path edge first nodes b ∧ d ∉ nodes := by
  induction walk with
  | refl => exact ⟨nodes, path, apart⟩
  | tail _ next ih =>
    obtain ⟨nodes, path, apart⟩ := ih
    refine ⟨_, path.step next.1, fun member => ?_⟩
    rcases List.mem_cons.mp member with rfl | member
    · exact next.2 rfl
    · exact apart member

/-- From its last occurrence of a node on, a path keeps clear of it. -/
theorem after_last (path : Path edge first nodes b) (member : d ∈ nodes) :
    Relation.ReflTransGen (fun a b => edge a b ∧ b ≠ d) d b := by
  induction path with
  | here => rw [List.mem_singleton.mp member]
  | @step nodes a c path next ih =>
    by_cases same : c = d
    · rw [same]
    · rcases List.mem_cons.mp member with rfl | member
      · exact absurd rfl same
      · exact (ih member).tail ⟨next, same⟩

end Path

section Dominators

theorem Dominates.refl (b : β) : Dominates edge first b b :=
  fun _ path => path.target_mem

theorem dominates_first (b : β) : Dominates edge first first b :=
  fun _ path => path.first_mem

theorem Dominates.trans (outer : Dominates edge first c d) (inner : Dominates edge first d b) :
    Dominates edge first c b := by
  intro nodes path
  obtain ⟨before, path', inside⟩ := path.prefix_of_mem (inner nodes path)
  exact inside.subset (outer before path')

theorem eq_first_of_dominates (dominates : Dominates edge first d first) : d = first :=
  List.mem_singleton.mp (dominates _ .here)

/-- What dominates a node from outside dominates the nodes before it. -/
theorem Dominates.of_edge (dominates : Dominates edge first d b) (apart : d ≠ b)
    (next : edge a b) : Dominates edge first d a := by
  intro nodes path
  exact (List.mem_cons.mp (dominates _ (path.step next))).resolve_left apart

theorem dominates_of_edges (apart : b ≠ first)
    (all : ∀ a, Reachable edge first a → edge a b → Dominates edge first d a) :
    Dominates edge first d b := by
  intro nodes path
  cases path with
  | here => exact absurd rfl apart
  | step path next => exact List.mem_cons_of_mem _ (all _ ⟨_, path⟩ next _ path)

/-- Sets that keep to the equations of the dominators hold nothing else. -/
theorem dominates_of_equations {doms : β → β → Prop} (start : ∀ d, doms first d → d = first)
    (equation : ∀ a b, Reachable edge first a → edge a b → ∀ d, doms b d → d = b ∨ doms a d)
    (member : doms b d) : Dominates edge first d b := by
  intro nodes path
  induction path with
  | here => exact List.mem_singleton.mpr (start d member)
  | step path next ih =>
    rcases equation _ _ ⟨_, path⟩ next d member with rfl | member
    · exact List.mem_cons_self
    · exact List.mem_cons_of_mem _ (ih member)

theorem Dominates.antisymm (reachable : Reachable edge first b) (down : Dominates edge first d b)
    (up : Dominates edge first b d) : d = b := by
  obtain ⟨nodes, path⟩ := reachable
  induction size : nodes.length using Nat.strongRecOn generalizing nodes with
  | _ n ih =>
    obtain ⟨toD, pathD, insideD⟩ := path.prefix_of_mem (down nodes path)
    obtain ⟨toB, pathB, insideB⟩ := pathD.prefix_of_mem (up toD pathD)
    rcases Nat.lt_or_eq_of_le insideD.length_le with less | same
    · exact ih toB.length (size ▸ Nat.lt_of_le_of_lt insideB.length_le less) toB pathB rfl
    · rw [insideD.eq_of_length same] at pathD
      exact pathD.unique path

theorem ImmediatelyDominates.unique (reachable : Reachable edge first b)
    (immediate : ImmediatelyDominates edge first c b)
    (other : ImmediatelyDominates edge first d b) : c = d := by
  obtain ⟨nodes, path⟩ := reachable
  have within := path.reachable_of_mem (other.1.1 nodes path)
  exact Dominates.antisymm within (other.2 c immediate.1) (immediate.2 d other.1)

/-- What dominates a node strictly is what dominates its immediate dominator. -/
theorem ImmediatelyDominates.dominates_iff (reachable : Reachable edge first b)
    (immediate : ImmediatelyDominates edge first d b) :
    Dominates edge first c d ↔ StrictlyDominates edge first c b := by
  constructor
  · intro dominates
    refine ⟨dominates.trans immediate.1.1, fun same => ?_⟩
    subst same
    exact immediate.1.2 (Dominates.antisymm reachable immediate.1.1 dominates)
  · exact immediate.2 c

/-- An immediate dominator has a shorter path. -/
theorem ImmediatelyDominates.shorter (immediate : ImmediatelyDominates edge first d b)
    (path : Path edge first nodes b) :
    ∃ before, Path edge first before d ∧ before.length < nodes.length := by
  obtain ⟨before, path', inside⟩ := path.prefix_of_mem (immediate.1.1 nodes path)
  refine ⟨before, path', Nat.lt_of_le_of_ne inside.length_le fun same => ?_⟩
  rw [inside.eq_of_length same] at path'
  exact immediate.1.2 (path'.unique path)

/-- No path gets to a node whose edges all come from itself. -/
theorem not_reachable_of_loop (apart : b ≠ first)
    (all : ∀ a, Reachable edge first a → edge a b → a = b) : ¬ Reachable edge first b := by
  rintro ⟨nodes, path⟩
  induction path with
  | here => exact apart rfl
  | step path next ih =>
    obtain rfl := all _ ⟨_, path⟩ next
    exact ih apart all

/-- A node with one predecessor is in no frontier. -/
theorem not_inFrontier_of_single {y p : β} (reachable : Reachable edge first y) (apart : y ≠ first)
    (all : ∀ a, Reachable edge first a → edge a y → a = p) : ¬ InFrontier edge first b y := by
  rintro ⟨q, reached, next, dominates, notStrict⟩
  obtain rfl := all q reached next
  have each {d : β} (above : Dominates edge first d q) : Dominates edge first d y :=
    dominates_of_edges apart fun a reached next => all a reached next ▸ above
  have same : b = y := not_not.mp fun other => notStrict ⟨each dominates, other⟩
  subst same
  have loop := Dominates.antisymm reached dominates (each (.refl q))
  exact not_reachable_of_loop apart (fun a reached next => (all a reached next).trans loop.symm)
    reachable

end Dominators

section Map

variable {γ : Type} {edge' : γ → γ → Prop} {f : β → γ}

theorem Path.map (maps : ∀ a b, Reachable edge first a → edge a b → edge' (f a) (f b))
    (path : Path edge first nodes b) : Path edge' (f first) (nodes.map f) (f b) := by
  induction path with
  | here => exact .here
  | step path next ih => exact ih.step (maps _ _ ⟨_, path⟩ next)

/-- A map of graphs that keeps the nodes apart reflects dominance. -/
theorem Dominates.of_map (maps : ∀ a b, Reachable edge first a → edge a b → edge' (f a) (f b))
    (apart : ∀ a b, Reachable edge first a → Reachable edge first b → f a = f b → a = b)
    (reachable : Reachable edge first d) (dominates : Dominates edge' (f first) (f d) (f b)) :
    Dominates edge first d b := by
  intro nodes path
  obtain ⟨x, member, same⟩ := List.mem_map.mp (dominates _ (path.map maps))
  exact apart x d (path.reachable_of_mem member) reachable same ▸ member

theorem Dominates.reachable (reachable : Reachable edge first b)
    (dominates : Dominates edge first d b) : Reachable edge first d := by
  obtain ⟨nodes, path⟩ := reachable
  exact path.reachable_of_mem (dominates nodes path)

end Map

end Egg.Data.FlowGraph
