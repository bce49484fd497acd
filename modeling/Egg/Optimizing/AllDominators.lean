import Egg.Data.Fuel
import Egg.Optimizing.BasicBlock
import Mathlib.Algebra.BigOperators.Group.Finset.Basic
import Mathlib.Algebra.Order.BigOperators.Group.Finset
import Mathlib.Data.Fintype.BigOperators

/-! The sets of the dominators, which start with the blocks alone and grow. -/
namespace Egg.Optimizing

open Egg.Data Egg.Data.FlowGraph

/-- The predecessor lists of a graph agree with its jumps. -/
structure ControlFlow (Block : Type) where
  last : Block → Last Block
  first : Block
  predecessors : Block → List Block
  agrees : ∀ a b, Reachable (Edge last) first b →
    (a ∈ predecessors b ↔ Reachable (Edge last) first a ∧ Edge last a b)

namespace ControlFlow

section Model

variable {Block : Type} [DecidableEq Block] (predecessors : Block → List Block)

/-- What the sets of the predecessors share, with the block itself. -/
def current (incoming : List (Finset Block)) (block : Block) : Finset Block :=
  insert block <| match incoming with
    | [] => ∅
    | initial :: _ => incoming.foldl (fun intersection doms => doms ∩ intersection) initial

/-- A pass over the blocks, with what changed. -/
def dominatorsPass : (blocks : List Block) → (result : Block → Option (Finset Block)) →
    (changed : Bool) → Option ((Block → Option (Finset Block)) × Bool)
  | [], result, changed => some (result, changed)
  | block :: blocks, result, changed => do
    let incoming ← (predecessors block).mapM result
    let known ← result block
    if (current incoming block).card ≠ known.card then
      dominatorsPass blocks (Function.update result block (some (current incoming block))) true
    else dominatorsPass blocks result changed

/-- The passes until nothing changes. -/
def dominatorsLoop (blocks : List Block) :
    (fuel : Nat) → (result : Block → Option (Finset Block)) → Option (Block → Option (Finset Block))
  | 0, _ => none
  | fuel + 1, result => do
    let (result, changed) ← dominatorsPass predecessors blocks result false
    if changed then dominatorsLoop blocks fuel result else some result

def allDominators [Fintype Block] (graph : ControlFlow Block) (fuel : Nat) :
    Option (Block → Option (Finset Block)) :=
  let all := withSuccessorsPostOrder graph.last graph.first
  let result : Block → Option (Finset Block) :=
    all.foldl (fun result block => Function.update result block (some {block})) fun _ => none
  dominatorsLoop graph.predecessors all.reverse fuel result

/-- The graph of some jumps, with its predecessor lists brought up to date. -/
def ofJumps [Fintype Block] (last : Block → Last Block) (first : Block) : ControlFlow Block where
  last := last
  first := first
  predecessors := updatePredecessors last first fun _ => []
  agrees _ _ reachable := mem_updatePredecessors _ reachable

end Model

section Sets

variable {Block : Type} [DecidableEq Block] {graph : ControlFlow Block}

theorem mem_current {incoming : List (Finset Block)} {block d : Block} :
    d ∈ current incoming block ↔ d = block ∨ (incoming ≠ [] ∧ ∀ doms ∈ incoming, d ∈ doms) := by
  have folded (more : List (Finset Block)) (initial : Finset Block) :
      d ∈ more.foldl (fun intersection doms => doms ∩ intersection) initial ↔
        d ∈ initial ∧ ∀ doms ∈ more, d ∈ doms := by
    induction more generalizing initial with
    | nil => simp
    | cons doms more ih =>
      rw [List.foldl_cons, ih, Finset.mem_inter, List.forall_mem_cons]
      tauto
  unfold current
  rw [Finset.mem_insert]
  cases incoming with
  | nil => simp
  | cons initial more =>
    rw [folded, List.forall_mem_cons]
    simp

variable (graph)

/-- A node of the graph is reached from the first one. -/
def Reached (b : Block) : Prop :=
  Reachable (Edge graph.last) graph.first b

/-- What a pass would put into the set of a block. -/
def Shared (sets : Block → Finset Block) (b d : Block) : Prop :=
  d = b ∨ ((∃ p, graph.Reached p ∧ Edge graph.last p b) ∧
    ∀ p, graph.Reached p → Edge graph.last p b → d ∈ sets p)

/-- The dictionary has these sets. -/
def Holds (result : Block → Option (Finset Block)) (sets : Block → Finset Block) : Prop :=
  ∀ b, graph.Reached b → result b = some (sets b)

/-- The sets may only grow. -/
def Growing (sets : Block → Finset Block) : Prop :=
  ∀ b, graph.Reached b → b ∈ sets b ∧ ∀ d ∈ sets b, graph.Shared sets b d

/-- Sets that a pass would leave or cut. -/
def Bounds (bound : Block → Finset Block) : Prop :=
  ∀ b, graph.Reached b → ∀ d, graph.Shared bound b d → d ∈ bound b

variable {graph}

omit [DecidableEq Block] in
theorem Shared.mono {sets sets' : Block → Finset Block} (grows : ∀ b, sets b ⊆ sets' b)
    {b d : Block} (shared : graph.Shared sets b d) : graph.Shared sets' b d :=
  shared.imp id fun ⟨before, all⟩ => ⟨before, fun p reached edge => grows p (all p reached edge)⟩

theorem Holds.current_spec {result : Block → Option (Finset Block)} {sets : Block → Finset Block}
    (holds : graph.Holds result sets) {block : Block} (reached : graph.Reached block) :
    ∃ incoming, (graph.predecessors block).mapM result = some incoming ∧
      ∀ d, d ∈ current incoming block ↔ graph.Shared sets block d := by
  have mapped (blocks : List Block) (inside : ∀ p ∈ blocks, graph.Reached p) :
      blocks.mapM result = some (blocks.map sets) := by
    induction blocks with
    | nil => rfl
    | cons p blocks ih =>
      rw [List.mapM_cons, holds p (inside p List.mem_cons_self),
        ih fun q member => inside q (List.mem_cons_of_mem _ member)]
      rfl
  have members (p : Block) := graph.agrees p block reached
  refine ⟨_, mapped _ fun p member => ((members p).mp member).1, fun d => ?_⟩
  rw [mem_current]
  refine or_congr_right (and_congr ?_ ?_)
  · rw [ne_eq, List.map_eq_nil_iff]
    constructor
    · intro some
      obtain ⟨p, member⟩ := List.exists_mem_of_ne_nil _ some
      exact ⟨p, (members p).mp member⟩
    · rintro ⟨p, reaches⟩ none
      have member := (members p).mpr reaches
      rw [none] at member
      exact List.not_mem_nil member
  · constructor
    · intro all p reached' edge
      exact all _ (List.mem_map.mpr ⟨p, (members p).mpr ⟨reached', edge⟩, rfl⟩)
    · intro all doms member
      obtain ⟨p, listed, rfl⟩ := List.mem_map.mp member
      obtain ⟨reached', edge⟩ := (members p).mp listed
      exact all p reached' edge

/-- The sum of the sizes, which the passes raise. -/
def sizes [Fintype Block] (sets : Block → Finset Block) : Nat :=
  ∑ b, (sets b).card

/-- What a pass makes of the sets. -/
structure Passed [Fintype Block] (graph : ControlFlow Block) (blocks : List Block)
    (sets sets' : Block → Finset Block) (changed changed' : Bool) : Prop where
  growing : graph.Growing sets'
  grows : ∀ b, sets b ⊆ sets' b
  least : ∀ bound, graph.Bounds bound → (∀ b, graph.Reached b → sets b ⊆ bound b) →
    ∀ b, graph.Reached b → sets' b ⊆ bound b
  raised : changed' = true → changed = true ∨ sizes sets < sizes sets'
  fixed : changed' = false → changed = false ∧ sets' = sets ∧
    ∀ b ∈ blocks, ∀ d, graph.Shared sets b d → d ∈ sets b

variable [Fintype Block]

theorem dominatorsPass_spec {blocks : List Block} (inside : ∀ b ∈ blocks, graph.Reached b)
    {result : Block → Option (Finset Block)} {sets : Block → Finset Block}
    (holds : graph.Holds result sets) (growing : graph.Growing sets) (changed : Bool) :
    ∃ result' sets' changed',
      dominatorsPass graph.predecessors blocks result changed = some (result', changed') ∧
        graph.Holds result' sets' ∧ Passed graph blocks sets sets' changed changed' := by
  induction blocks generalizing result sets changed with
  | nil =>
    exact ⟨result, sets, changed, rfl, holds, growing, fun b => Finset.Subset.refl _,
      fun bound _ within => within, .inl, fun still => ⟨still, rfl, fun b member => by cases member⟩⟩
  | cons block blocks ih =>
    have reached := inside block List.mem_cons_self
    have inside' := fun b member => inside b (List.mem_cons_of_mem block member)
    obtain ⟨incoming, mapped, members⟩ := holds.current_spec reached
    have more : sets block ⊆ current incoming block := fun d member =>
      (members d).mpr ((growing block reached).2 d member)
    by_cases same : (current incoming block).card = (sets block).card
    · obtain ⟨result', sets', changed', ran, holds', passed⟩ := ih inside' holds growing changed
      refine ⟨result', sets', changed', ?_, holds', passed.growing, passed.grows, passed.least,
        passed.raised, fun still => ?_⟩
      · simp only [dominatorsPass, mapped, holds block reached, Option.bind_eq_bind,
          Option.bind_some, ne_eq, same, not_true_eq_false, if_false]
        exact ran
      · obtain ⟨flag, eq, rest⟩ := passed.fixed still
        refine ⟨flag, eq, fun b member d shared => ?_⟩
        rcases List.mem_cons.mp member with rfl | member
        · rw [Finset.eq_of_subset_of_card_le more (Nat.le_of_eq same)]
          exact (members d).mpr shared
        · exact rest b member d shared
    · have grows (b : Block) : sets b ⊆ Function.update sets block (current incoming block) b := by
        rw [Function.update_apply]
        split
        · rename_i here
          exact here ▸ more
        · exact Finset.Subset.refl _
      have holds' : graph.Holds (Function.update result block (some (current incoming block)))
          (Function.update sets block (current incoming block)) := by
        intro b reached'
        rw [Function.update_apply, Function.update_apply]
        split
        · rfl
        · exact holds b reached'
      have growing' : graph.Growing (Function.update sets block (current incoming block)) := by
        intro b reached'
        refine ⟨grows b (growing b reached').1, fun d member => Shared.mono grows ?_⟩
        rw [Function.update_apply] at member
        split at member
        · rename_i here
          exact here ▸ (members d).mp member
        · exact (growing b reached').2 d member
      have larger : sizes sets < sizes (Function.update sets block (current incoming block)) := by
        apply Finset.sum_lt_sum (fun b _ => Finset.card_le_card (grows b))
        refine ⟨block, Finset.mem_univ block, ?_⟩
        rw [Function.update_self]
        exact Nat.lt_of_le_of_ne (Finset.card_le_card more) (Ne.symm same)
      obtain ⟨result', sets', changed', ran, holds₂, passed⟩ := ih inside' holds' growing' true
      have further : sizes (Function.update sets block (current incoming block)) ≤ sizes sets' :=
        Finset.sum_le_sum fun b _ => Finset.card_le_card (passed.grows b)
      refine ⟨result', sets', changed', ?_, holds₂, passed.growing,
        fun b => (grows b).trans (passed.grows b), fun bound bounds within => ?_,
        fun _ => .inr (Nat.lt_of_lt_of_le larger further), fun still => ?_⟩
      · simp only [dominatorsPass, mapped, holds block reached, Option.bind_eq_bind,
          Option.bind_some, ne_eq, same, not_false_eq_true, if_true]
        exact ran
      · apply passed.least bound bounds
        intro b reached' d member
        rw [Function.update_apply] at member
        split at member
        · rename_i here
          subst here
          exact bounds b reached' d (((members d).mp member).imp id fun ⟨before, all⟩ =>
            ⟨before, fun p reaches edge => within p reaches (all p reaches edge)⟩)
        · exact within b reached' member
      · exact absurd (passed.fixed still).1 (by decide)

omit [DecidableEq Block] in
theorem sizes_le (sets : Block → Finset Block) :
    sizes sets ≤ Fintype.card Block * Fintype.card Block := by
  have each : sizes sets ≤ ∑ _b : Block, Fintype.card Block :=
    Finset.sum_le_sum fun b _ => Finset.card_le_univ _
  rw [Finset.sum_const, Finset.card_univ] at each
  exact each

/-- The passes end with sets that a pass would leave. -/
theorem dominatorsLoop_spec {blocks : List Block} (inside : ∀ b ∈ blocks, graph.Reached b)
    (all : ∀ b, graph.Reached b → b ∈ blocks) {result : Block → Option (Finset Block)}
    {sets : Block → Finset Block} (holds : graph.Holds result sets) (growing : graph.Growing sets) :
    ∃ result' sets',
      Converges (fun fuel => dominatorsLoop graph.predecessors blocks fuel result) result' ∧
        graph.Holds result' sets' ∧
        (∀ b, graph.Reached b → ∀ d, d ∈ sets' b ↔ graph.Shared sets' b d) ∧
        ∀ bound, graph.Bounds bound → (∀ b, graph.Reached b → sets b ⊆ bound b) →
          ∀ b, graph.Reached b → sets' b ⊆ bound b := by
  induction room : Fintype.card Block * Fintype.card Block - sizes sets using Nat.strongRecOn
    generalizing result sets with
  | _ n ih =>
    obtain ⟨result', sets', changed, ran, holds', passed⟩ :=
      dominatorsPass_spec inside holds growing false
    cases changed with
    | true =>
      have larger := (passed.raised rfl).resolve_left Bool.false_ne_true
      have bounded := sizes_le sets'
      obtain ⟨result₂, sets₂, ⟨steps, ended⟩, holds₂, fixed, least⟩ :=
        ih _ (by omega) holds' passed.growing rfl
      refine ⟨result₂, sets₂, ⟨steps + 1, fun fuel enough => ?_⟩, holds₂, fixed,
        fun bound bounds within => least bound bounds (passed.least bound bounds within)⟩
      obtain ⟨less, rfl⟩ := Nat.exists_eq_add_of_le' (Nat.one_le_of_lt enough)
      simp only [dominatorsLoop, ran, Option.bind_eq_bind, Option.bind_some, if_true]
      exact ended less (Nat.le_of_succ_le_succ enough)
    | false =>
      obtain ⟨-, rfl, fixed⟩ := passed.fixed rfl
      refine ⟨result', sets', ⟨1, fun fuel enough => ?_⟩, holds', fun b reached d => ?_,
        fun bound _ within => within⟩
      · obtain ⟨rest, rfl⟩ := Nat.exists_eq_add_of_le' enough
        simp only [dominatorsLoop, ran, Option.bind_eq_bind, Option.bind_some, Bool.false_eq_true,
          if_false]
      · exact ⟨(growing b reached).2 d, fixed b (all b reached) d⟩

variable (graph)

/-- The sets that are found are the least ones that the passes leave. -/
theorem allDominators_spec : ∃ result sets,
    Converges (fun fuel => graph.allDominators fuel) result ∧ graph.Holds result sets ∧
      (∀ b, graph.Reached b → ∀ d, d ∈ sets b ↔ graph.Shared sets b d) ∧
      ∀ bound, graph.Bounds bound → ∀ b, graph.Reached b → sets b ⊆ bound b := by
  have members (b : Block) :
      b ∈ (withSuccessorsPostOrder graph.last graph.first).reverse ↔ graph.Reached b := by
    rw [List.mem_reverse, mem_postOrder]
    rfl
  have starts : graph.Holds ((withSuccessorsPostOrder graph.last graph.first).foldl
      (fun result block => Function.update result block (some {block})) fun _ => none)
      fun b => {b} := by
    intro b reached
    exact (foldl_update (fun block => some ({block} : Finset Block)) _ _ b).trans
      (if_pos (List.mem_reverse.mp ((members b).mpr reached)))
  have growing : graph.Growing fun b => {b} := fun b _ =>
    ⟨Finset.mem_singleton_self b, fun d member => .inl (Finset.mem_singleton.mp member)⟩
  obtain ⟨result, sets, ended, holds, fixed, least⟩ := dominatorsLoop_spec
    (fun b member => (members b).mp member) (fun b reached => (members b).mpr reached) starts growing
  refine ⟨result, sets, ended, holds, fixed, fun bound bounds => least bound bounds ?_⟩
  intro b reached d member
  exact bounds b reached d (.inl (Finset.mem_singleton.mp member))

end Sets

end ControlFlow

end Egg.Optimizing
